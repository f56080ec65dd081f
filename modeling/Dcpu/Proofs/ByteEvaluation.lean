import Dcpu.Proofs.ByteOffsets
import Dcpu.Proofs.Numerals

/-! Evaluation by byte offsets. The levels of evaluation are run on slices, and a slice that is not
there ends the run without an answer. That does not happen in an expression without braces whose
characters outside of ASCII are all in literals: it is evaluated on slices as it is on texts. -/
namespace Dcpu.Expr

open Answer Text

section Tokens

variable {t rest : Text} {c : Context}

/-- As `charLiteral?`, for a token with both of its quotes. -/
def charBytes? (t : Text) : Option (Option Word) :=
  if utf8Length t < 3 ∨ t.getLast? ≠ some '\'' then some none
  else (slice? t 1 (utf8Length t - 1)).map fun inner => do
    match ← unescape? inner with
    | [c] => Word.ofNat? c.toNat
    | _ => none

/-- As `Numeral.number?`, where the radix is announced by the first two bytes. -/
def numberBytes? (t : Text) : Option (Option Word) :=
  let u := (lower t).filter (· ≠ '_')
  match Numeral.radices.find? fun row => takeBytes? 2 u = some ['0', row.1] with
  | some row => (dropBytes? 2 u).map fun ds => (Numeral.digits? row.2 ds).bind Word.ofNat?
  | none => some ((Numeral.digits? 10 u).bind Word.ofNat?)

/-- The value of a token without operators. -/
def tokenBytes (c : Context) (t : Text) : ExceptT Abort Option Result :=
  match c.hooks.value? t with
  | some v => known (.ok (.ofWord v))
  | none =>
    if t.head? = some '\'' then do
      let w ← ExceptT.lift (charBytes? t)
      known (.ok (.ofWord? w))
    else if t.head? = some '{' ∧ t.getLast? = some '}' then do
      let inner ← ExceptT.lift (slice? t 1 (utf8Length t - 1))
      known ((c.literal inner).map .ofWord?)
    else if t.head?.any Char.isDigit then do
      let w ← ExceptT.lift (numberBytes? t)
      known (.ok (.ofWord? w))
    else known (c.token t)

theorem lift_some_bind {α : Type} (a : α) (k : α → ExceptT Abort Option Result) :
    (ExceptT.lift (some a) >>= k) = k a := rfl

/-- The text between two characters of one byte each. -/
theorem slice?_between {a b : Char} (ha : a.utf8Size = 1) (hb : b.utf8Size = 1) (u : Text) :
    slice? (a :: (u ++ [b])) 1 (utf8Length (a :: (u ++ [b])) - 1) = some u := by
  have hone : utf8Length [a] = 1 := by
    rw [utf8Length_cons, ha]
    rfl
  have hlen : utf8Length (a :: (u ++ [b])) - 1 = utf8Length ([a] ++ u) := by
    rw [utf8Length_cons, utf8Length_append, utf8Length_cons, utf8Length_append, hone, ha, hb]
    show 1 + (utf8Length u + (1 + 0)) - 1 = 1 + utf8Length u
    omega
  exact slice?_eq_some.mpr ⟨[a], [b], by simp, hone, hlen.symm⟩

theorem getLast?_of_dropLast? {a b : Char} (hr : rest ≠ []) (h : dropLast? a rest = none) :
    (b :: rest).getLast? ≠ some a := by
  rw [List.getLast?_cons_of_ne_nil hr]
  intro hl
  rw [dropLast?, if_pos hl] at h
  cases h

theorem charBytes?_eq (rest : Text) : charBytes? ('\'' :: rest) = some (charLiteral? rest) := by
  unfold charBytes? charLiteral?
  cases hr : dropLast? '\'' rest with
  | none =>
    have hshort : utf8Length ('\'' :: rest) < 3 ∨ ('\'' :: rest).getLast? ≠ some '\'' := by
      by_cases hnil : rest = []
      · rw [hnil]
        exact .inl (by decide)
      · exact .inr (getLast?_of_dropLast? hnil hr)
    rw [if_pos hshort]
    rfl
  | some u =>
    obtain rfl := dropLast?_eq_some hr
    cases u with
    | nil => rfl
    | cons x u =>
      have hx := x.utf8Size_pos
      have hlong : ¬ (utf8Length ('\'' :: (x :: u ++ ['\''])) < 3 ∨
          ('\'' :: (x :: u ++ ['\''])).getLast? ≠ some '\'') := by
        have hquote : '\''.utf8Size = 1 := by decide
        have hlen : utf8Length ('\'' :: (x :: u ++ ['\''])) =
            1 + (x.utf8Size + utf8Length u + (1 + 0)) := by
          rw [utf8Length_cons, utf8Length_append, utf8Length_cons, utf8Length_cons, hquote]
          rfl
        rintro (h | h)
        · omega
        · exact h (List.getLast?_eq_some_iff.mpr ⟨'\'' :: x :: u, rfl⟩)
      rw [if_neg hlong, slice?_between (by decide) (by decide)]
      rfl

theorem numberBytes?_eq (t : Text) : numberBytes? t = some (Numeral.number? t) := by
  unfold numberBytes? Numeral.number?
  dsimp only
  generalize (lower t).filter (· ≠ '_') = u
  rcases Numeral.radixOf_cases u with ⟨row, hrow, ds, rfl, hr⟩ | ⟨hp, hr⟩
  · obtain ⟨hlen, hfind⟩ : utf8Length ['0', row.1] = 2 ∧
        Numeral.radices.find? (fun r => decide (some ['0', row.1] = some ['0', r.1])) =
          some row := by
      simp only [Numeral.radices, List.mem_cons, List.not_mem_nil, or_false] at hrow
      rcases hrow with rfl | rfl | rfl | rfl
      all_goals decide
    have htake : takeBytes? 2 ('0' :: row.1 :: ds) = some ['0', row.1] := by
      rw [← hlen]
      exact takeBytes?_append ['0', row.1] ds
    have hdrop : dropBytes? 2 ('0' :: row.1 :: ds) = some ds := by
      rw [← hlen]
      exact dropBytes?_append ['0', row.1] ds
    simp only [hr, htake, hfind, hdrop, Option.map_some]
  · have hnone : (Numeral.radices.find? fun row =>
        decide (takeBytes? 2 u = some ['0', row.1])) = none := by
      rw [List.find?_eq_none]
      intro row hrow hd
      obtain ⟨b, hu, -⟩ := exists_of_takeBytes? (of_decide_eq_true hd)
      exact hp row hrow ⟨b, hu.symm⟩
    rw [hr, hnone]

theorem token_quoted (hv : c.hooks.value? ('\'' :: rest) = none) :
    c.token ('\'' :: rest) = .ok (.ofWord? (charLiteral? rest)) := by
  unfold Context.token
  rw [hv]
  rfl

theorem token_braces {u : Text} (hv : c.hooks.value? ('{' :: (u ++ ['}'])) = none) :
    c.token ('{' :: (u ++ ['}'])) = (c.literal u).map .ofWord? := by
  have hd : dropLast? '}' (u ++ ['}']) = some u := by simp [dropLast?]
  unfold Context.token
  rw [hv]
  simp only [hd]

theorem token_number {d : Char} (hv : c.hooks.value? (d :: rest) = none)
    (hd : d.isDigit = true) :
    c.token (d :: rest) = .ok (.ofWord? (Numeral.number? (d :: rest))) := by
  have hne (x : Char) (hx : x.isDigit = false) : d ≠ x := by
    rintro rfl
    rw [hx] at hd
    cases hd
  unfold Context.token
  rw [hv]
  dsimp only
  split
  next h => exact (hne '\'' (by decide) (List.cons.inj h).1).elim
  next h => exact (hne '{' (by decide) (List.cons.inj h).1).elim
  next h => exact (hne '$' (by decide) (List.cons.inj h).1).elim
  next h => exact (hne '$' (by decide) (List.cons.inj h).1).elim
  next =>
    unfold Context.word
    rw [if_pos (by simpa using hd)]

/-- The slices of a token are always there. -/
theorem tokenBytes_eq (c : Context) (t : Text) : tokenBytes c t = known (c.token t) := by
  unfold tokenBytes
  split
  next v hv =>
    unfold Context.token
    rw [hv]
  next hv =>
    split
    next hq =>
      obtain ⟨rest, rfl⟩ := List.head?_eq_some_iff.mp hq
      rw [charBytes?_eq, lift_some_bind, token_quoted hv]
    split
    next hb =>
      obtain ⟨rest, rfl⟩ := List.head?_eq_some_iff.mp hb.1
      obtain ⟨u, rfl⟩ : ∃ u, rest = u ++ ['}'] := by
        obtain ⟨v, hv⟩ := List.getLast?_eq_some_iff.mp hb.2
        cases v with
        | nil => cases (List.cons.inj hv).1
        | cons x u => exact ⟨u, (List.cons.inj hv).2⟩
      rw [slice?_between (by decide) (by decide), lift_some_bind, token_braces hv]
    split
    next hd =>
      obtain ⟨d, hh, hd⟩ := (Option.any_eq_true _ _).mp hd
      obtain ⟨rest, rfl⟩ := List.head?_eq_some_iff.mp hh
      rw [numberBytes?_eq, lift_some_bind, token_number hv hd]
    rfl

end Tokens

section Levels

variable {c : Context} {text t : Text} {g : Group} {a : Abort}
  {recur : Text → ExceptT Abort Option Result}

/-- One level of evaluation on slices, where `recur` answers for the nested texts. -/
def levelBytes (c : Context) (recur : Text → ExceptT Abort Option Result) (text : Text) :
    ExceptT Abort Option Result :=
  let e := trim text
  if e = [] then known (.ok .failed)
  else
    match groupOffsets? e with
    | some (opened, closed) => do
      let s ← ExceptT.lift (groupSlices? e opened closed)
      match c.hooks.function? s.name with
      | some f =>
        match f (trim s.inner) c.symbols with
        | none => known (.ok .failed)
        | some v => recur (s.lead ++ Numeral.decimal v.toNat ++ s.after)
      | none => do
        let inner ← recur s.inner
        if inner.ok then
          let r ← recur (s.before ++ Numeral.decimal inner.value.toNat ++ s.after)
          return r.absorb inner
        else return inner
    | none =>
      match e with
      | '~' :: operand => Result.mapValue (~~~ ·) <$> recur operand
      | _ => do
        match ← ExceptT.lift (splitSlices? e) with
        | some ⟨[], .sub, right⟩ => Result.mapValue (0 - ·) <$> recur right
        | some s =>
          let left ← recur s.left
          let right ← recur s.right
          return combine s left right
        | none => tokenBytes c e

/-- Evaluation on slices to a depth. There is no result where it goes deeper or where a slice is
not there. -/
def evalBytes (c : Context) : Nat → Text → ExceptT Abort Option Result
  | 0, _ => ExceptT.mk none
  | depth + 1, text => levelBytes c (evalBytes c depth) text

/-- A group is evaluated on its slices, unless its name follows a character outside of ASCII. -/
theorem levelBytes_group (hf : form text = .group g) :
    levelBytes c recur text =
      if g.followsWide then ExceptT.mk none else level c recur text := by
  have hg := group?_of_form hf
  have hne : trim text ≠ [] := by
    intro hnil
    rw [hnil] at hg
    cases hg
  unfold levelBytes level
  dsimp only
  rw [if_neg hne, groupOffsets?_eq, hg, hf, Option.map_some]
  dsimp only
  rw [groupSlices?_eq hg]
  cases hw : g.followsWide with
  | true => rfl
  | false => rfl

theorem levelBytes_of_group? (hg : group? (trim text) = none) :
    levelBytes c recur text = level c recur text := by
  unfold levelBytes level form
  generalize trim text = e at hg ⊢
  dsimp only
  rw [groupOffsets?_eq, hg, splitSlices?_eq]
  cases e with
  | nil => rfl
  | cons x e =>
    rw [if_neg (List.cons_ne_nil _ _), Option.map_none]
    simp only [lift_some_bind]
    split
    next operand h =>
      obtain ⟨rfl, rfl⟩ := List.cons.inj h
      unfold formOfTrimmed
      rw [hg]
      rfl
    next hx =>
      rw [formOfTrimmed_of_cons hg fun h => hx e (by rw [h])]
      cases hs : split? (x :: e) with
      | none => exact tokenBytes_eq c _
      | some s =>
        obtain ⟨left, op, right⟩ := s
        cases left with
        | cons y left => rfl
        | nil => cases op <;> rfl

theorem levelBytes_eq (hw : ∀ g, form text = .group g → g.followsWide = false) :
    levelBytes c recur text = level c recur text := by
  cases hg : group? (trim text) with
  | none => exact levelBytes_of_group? hg
  | some g =>
    have hf : form text = .group g := by
      unfold form formOfTrimmed
      rw [hg]
    rw [levelBytes_group hf, hw g hf, if_neg Bool.false_ne_true]

end Levels

section Bounds

variable {c : Context} {text t : Text} {g : Group} {a : Abort} {depth : Nat}

/-- There are no braces, and every character outside of ASCII is in a literal. -/
structure Sliceable (text : Text) : Prop where
  noBraces : '{' ∉ text
  wideQuoted : WideQuoted text

namespace Sliceable

theorem nested {sub : Text} (h : Sliceable text) (hs : sub ∈ Expr.nested c text) :
    Sliceable sub where
  noBraces hm := h.noBraces (mem_of_mem_nested hs (by decide) hm)
  wideQuoted := wideQuoted_nested h.wideQuoted hs

theorem visits (h : Sliceable text) (hv : Visits c text t) : Sliceable t := by
  induction hv with
  | refl => exact h
  | tail _ hs ih => exact ih.nested hs

theorem not_stops (h : Sliceable text) : ¬ Stops c text a := by
  rintro (⟨-, g, hf, hw⟩ | ⟨u, hf, -⟩)
  · rw [followsWide_of_wideQuoted h.wideQuoted hf] at hw
    cases hw
  · exact h.noBraces (mem_of_form_braces hf)

theorem exists_eval (h : Sliceable text) (c : Context) : ∃ r, eval c text = .ok r := by
  cases he : eval c text with
  | ok r => exact ⟨r, rfl⟩
  | error a =>
    obtain ⟨t, hv, ha⟩ := exists_visited_of_error he
    exact ((h.visits hv).not_stops ha).elim

theorem evalBytes_eq (h : Sliceable text) (hd : weight text < depth) :
    evalBytes c depth text = known (eval c text) := by
  induction depth generalizing text with
  | zero => omega
  | succ depth ih =>
    rw [evalBytes, levelBytes_eq fun g => followsWide_of_wideQuoted h.wideQuoted]
    apply level_of_nested
    intro sub hs
    have hlt := weight_nested_lt hs
    exact ih (h.nested hs) (by omega)

end Sliceable

/-- An expression without braces whose characters outside of ASCII are all in literals is evaluated
on slices, whatever the context, and gives the result that it has. No group that evaluation comes to
has a name behind a character outside of ASCII, and the slices of the group are there. -/
theorem evalBytes_of_wideQuoted (c : Context) (hb : '{' ∉ text) (hw : WideQuoted text) :
    (∃ r, eval c text = .ok r ∧
      ∀ depth, weight text < depth → evalBytes c depth text = known (.ok r)) ∧
    ∀ t g, Visits c text t → form t = .group g →
      g.followsWide = false ∧
      (groupOffsets? (trim t)).bind (fun o => groupSlices? (trim t) o.1 o.2) = some g.slices := by
  have h : Sliceable text := ⟨hb, hw⟩
  constructor
  · obtain ⟨r, hr⟩ := h.exists_eval c
    refine ⟨r, hr, fun depth hd => ?_⟩
    rw [h.evalBytes_eq hd, hr]
  · intro t g hv hf
    have hg := group?_of_form hf
    have hwide := followsWide_of_wideQuoted (h.visits hv).wideQuoted hf
    refine ⟨hwide, ?_⟩
    rw [groupOffsets?_eq, hg, Option.map_some, Option.bind_some, groupSlices?_eq hg, hwide]
    rfl

/-- A context without symbols. -/
def plainContext : Context where
  symbols := {}
  hooks := {}
  position := {}
  literal _ := .ok none

def quotedText : Text := "isref('é')+('é'-1)*(2+'λ')".toList

/-- The values of both groups come in beside literals that are still to be read. -/
theorem evalBytes_of_wideQuoted_sample :
    ('{' ∉ quotedText ∧ WideQuoted quotedText) ∧
    (∃ r, eval plainContext quotedText = .ok r ∧ r.value = 25416 ∧
      evalBytes plainContext (weight quotedText + 1) quotedText = known (.ok r)) ∧
    ∃ g, form quotedText = .group g ∧ g.name = "isref".toList ∧
      (groupOffsets? (trim quotedText)).bind
        (fun o => groupSlices? (trim quotedText) o.1 o.2) = some g.slices := by
  have hb : '{' ∉ quotedText := by decide
  have hw : WideQuoted quotedText := by
    have hall : (marked quotedText).all (fun m => decide (1 < m.char.utf8Size → m.free = false)) =
        true := by decide
    intro m hm
    exact of_decide_eq_true (List.all_eq_true.mp hall m hm)
  obtain ⟨⟨r, hr, hrun⟩, hgroups⟩ := evalBytes_of_wideQuoted plainContext hb hw
  obtain ⟨r', hr', hvalue⟩ := exists_ok (x := eval plainContext quotedText)
    (p := fun r => r.value == 25416) (by decide +kernel)
  obtain rfl : r = r' := Except.ok.inj (hr.symm.trans hr')
  refine ⟨⟨hb, hw⟩, ⟨r, hr, beq_iff_eq.mp hvalue, hrun _ (Nat.lt_succ_self _)⟩, ?_⟩
  let g : Group := ⟨"isref".toList, "'é'".toList, "+('é'-1)*(2+'λ')".toList⟩
  have hf : form quotedText = .group g := by decide
  exact ⟨g, hf, by decide, (hgroups quotedText g .refl hf).2⟩

end Bounds

end Dcpu.Expr
