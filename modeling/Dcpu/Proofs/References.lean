import Dcpu.Proofs.Chains
import Mathlib.Data.List.DropRight

/-! The names that an expression refers to. Where every group in parentheses has a value, all names
of the expression are looked up. A group without a value ends the evaluation, and the names behind
it are not looked up. -/
namespace Dcpu

namespace Text

theorem trimStart_append {a t : Text} (first : ∀ c ∈ t.head?, isBlank c = false) (hne : t ≠ []) :
    trimStart (a ++ t) = trimStart a ++ t := by
  obtain ⟨c, u, rfl⟩ := List.exists_cons_of_ne_nil hne
  have hc : ¬ isBlank c = true := by simp [first c rfl]
  rw [trimStart, List.dropWhile_append, List.dropWhile_cons_of_neg hc]
  split
  next h => rw [trimStart, List.isEmpty_iff.mp h, List.nil_append]
  next => rfl

theorem trimEnd_append {t b : Text} (last : ∀ c ∈ t.getLast?, isBlank c = false) (hne : t ≠ []) :
    trimEnd (t ++ b) = t ++ trimEnd b := by
  have h := trimStart_append (a := b.reverse) (t := t.reverse)
    (by rwa [List.head?_reverse]) (by simpa using hne)
  rw [trimEnd, List.reverse_append]
  change (trimStart (b.reverse ++ t.reverse)).reverse = _
  rw [h, List.reverse_append, List.reverse_reverse]
  rfl

/-- White space around a text that has none at its ends. -/
theorem trim_around {a t b : Text} (first : ∀ c ∈ t.head?, isBlank c = false)
    (last : ∀ c ∈ t.getLast?, isBlank c = false) (hne : t ≠ []) :
    trim (a ++ (t ++ b)) = trimStart a ++ (t ++ trimEnd b) := by
  have hne' : t ++ b ≠ [] := fun h => hne (List.append_eq_nil_iff.mp h).1
  have hfirst : ∀ c ∈ (t ++ b).head?, isBlank c = false := by
    rwa [List.head?_append_of_ne_nil _ hne]
  rw [trim, trimStart_append hfirst hne', ← List.append_assoc, ← List.append_assoc, trimEnd_append]
  · rwa [List.getLast?_append_of_ne_nil _ hne]
  · exact fun h => hne (List.append_eq_nil_iff.mp h).2

theorem trimStart_trimStart (t : Text) : trimStart (trimStart t) = trimStart t :=
  List.dropWhile_idempotent _ t

theorem trimEnd_trimEnd (t : Text) : trimEnd (trimEnd t) = trimEnd t := by
  rw [trimEnd, trimEnd, List.reverse_reverse, List.dropWhile_idempotent]

end Text

namespace Expr

open Text (isWordChar isBlank freed)

section Filling

variable {c : Context} {lead u rest : Text} {r : Result}

/-- White space around a text that has none at its ends does not count. -/
theorem eval_around {t : Text} (first : ∀ ch ∈ t.head?, isBlank ch = false)
    (last : ∀ ch ∈ t.getLast?, isBlank ch = false) (hne : t ≠ []) (lead rest : Text) :
    Text.trim (Text.trimStart lead ++ (t ++ Text.trimEnd rest)) =
        Text.trimStart lead ++ (t ++ Text.trimEnd rest) ∧
      eval c (lead ++ (t ++ rest)) =
        eval c (Text.trimStart lead ++ (t ++ Text.trimEnd rest)) := by
  have htrim := Text.trim_around (a := Text.trimStart lead) (b := Text.trimEnd rest) first last hne
  rw [Text.trimStart_trimStart, Text.trimEnd_trimEnd] at htrim
  exact ⟨htrim, eval_of_trim_eq ((Text.trim_around first last hne).trans htrim.symm)⟩

/-- As `eval_substitute`, with white space around the expression. -/
theorem eval_fill (hf : c.hooks.function? [] = none) (hlead : ∀ ch ∈ lead, isPlain ch = true)
    (hlast : ∀ ch ∈ lead.getLast?, Group.isNameChar ch = false ∧ ch.utf8Size = 1)
    (hu : Balanced u) (hr : eval c u = .ok r) :
    eval c (lead ++ '(' :: (u ++ ')' :: rest)) =
      if r.ok then
        (eval c (lead ++ (Numeral.decimal r.value.toNat ++ rest))).map (·.absorb r)
      else .ok r := by
  have hsuffix : Text.trimStart lead <:+ lead := List.dropWhile_suffix _
  obtain ⟨htrim, hgroup⟩ := eval_around (c := c) (t := '(' :: (u ++ [')'])) (by simp; decide)
    (by rw [← List.cons_append, List.getLast?_append_of_ne_nil _ (by simp)]; simp; decide)
    (by simp) lead rest
  obtain ⟨-, hfilled⟩ := eval_around (c := c) (t := Numeral.decimal r.value.toNat)
    (fun ch hc => Text.isBlank_of_isWordChar (isWordChar_decimal _ ch (List.mem_of_head? hc)))
    (fun ch hc => Text.isBlank_of_isWordChar (isWordChar_decimal _ ch (List.mem_of_getLast? hc)))
    (Numeral.decimal_ne_nil _) lead rest
  have hshape (a b : Text) : a ++ ('(' :: (u ++ [')']) ++ b) = a ++ '(' :: (u ++ ')' :: b) := by
    simp
  rw [hshape] at htrim hgroup
  rw [hshape] at hgroup
  rw [hgroup, hfilled, ← List.append_assoc]
  have hscan := scannedAs_plain fun ch hc => hlead ch (hsuffix.subset hc)
  refine eval_substitute hf hscan ?_ htrim hu hr
  intro ch hc
  refine hlast ch ?_
  obtain ⟨blanks, hb⟩ := hsuffix
  rw [← hb, List.getLast?_append, Option.mem_def.mp hc]
  rfl

end Filling

/-- Names and numbers, operators between them, and groups in parentheses. -/
inductive Phrase where
  | atom (a : Atom)
  | group (before : Pad) (inner : Phrase) (after : Pad)
  | binary (left : Phrase) (op : Operator) (right : Phrase)

namespace Phrase

def text : Phrase → Text
  | .atom a => a.text
  | .group before inner after => before.text ++ '(' :: (inner.text ++ ')' :: after.text)
  | .binary left op right => left.text ++ (op.symbol ++ right.text)

/-- The names that occur in a phrase. -/
def names : Phrase → List Text
  | .atom a => if isName a.word then [a.word] else []
  | .group _ inner _ => inner.names
  | .binary left _ right => left.names ++ right.names

/-- What the outermost parentheses enclose, from left to right. -/
def groups : Phrase → List Phrase
  | .atom _ => []
  | .group _ inner _ => [inner]
  | .binary left _ right => left.groups ++ right.groups

/-- The number of all parentheses. -/
def depth : Phrase → Nat
  | .atom _ => 0
  | .group _ inner _ => inner.depth + 1
  | .binary left _ right => left.depth + right.depth

def HasValue (c : Context) (p : Phrase) : Prop := ∃ r, eval c p.text = .ok r ∧ r.ok = true

/-- The second phrase is the first one with parentheses around a part of it. -/
inductive Wraps : Phrase → Phrase → Prop where
  | here (before : Pad) (p : Phrase) (after : Pad) : Wraps p (.group before p after)
  | inner {p q : Phrase} (before after : Pad) (h : Wraps p q) :
    Wraps (.group before p after) (.group before q after)
  | left {p q : Phrase} (op : Operator) (right : Phrase) (h : Wraps p q) :
    Wraps (.binary p op right) (.binary q op right)
  | right {p q : Phrase} (left : Phrase) (op : Operator) (h : Wraps p q) :
    Wraps (.binary left op p) (.binary left op q)

theorem Wraps.names_eq {p q : Phrase} (h : p.Wraps q) : q.names = p.names := by
  induction h with
  | here before p after => rfl
  | inner before after _ ih => exact ih
  | left op right _ ih => rw [names, ih, names]
  | right left op _ ih => rw [names, ih, names]

variable {c : Context} {p : Phrase}

theorem isPlain_pad (a : Pad) : ∀ ch ∈ a.text, isPlain ch = true :=
  fun ch hc => isPlain_of_isSoft (by simp [isSoft, a.isPad ch hc])

theorem balanced_text (p : Phrase) : Balanced p.text := by
  induction p with
  | atom a =>
    exact (scannedAs_plain fun _ hc => isPlain_of_isSoft (a.isSoft_of_mem_text hc)).balanced
  | group before inner after ih =>
    have hb := (scannedAs_plain (isPlain_pad before)).balanced
    have ha := (scannedAs_plain (isPlain_pad after)).balanced
    simpa [text] using hb.append (ih.group.append ha)
  | binary left op right ihl ihr =>
    exact ihl.append ((scannedAs_symbol op).balanced.append ihr)

/-- A phrase without parentheses is a chain. -/
theorem exists_chain (h : p.groups = []) :
    ∃ first rest, p.text = chainText first rest ∧
      ∀ t, t ∈ p.names ↔ t ∈ chainWords first rest ∧ isName t = true := by
  induction p with
  | atom a =>
    refine ⟨a, [], (chainText_nil a).symm, fun t => ?_⟩
    rw [names]
    split <;> simp_all [chainWords]
  | group before inner after => cases h
  | binary left op right ihl ihr =>
    obtain ⟨hl, hr⟩ := List.append_eq_nil_iff.mp h
    obtain ⟨first, rest, htl, hnl⟩ := ihl hl
    obtain ⟨a, after, htr, hnr⟩ := ihr hr
    refine ⟨first, rest ++ (op, a) :: after, ?_, fun t => ?_⟩
    · rw [text, htl, htr, chainText_append]
    · rw [names, chainWords_append, List.mem_append, List.mem_append, hnl, hnr, or_and_right]

/-- The first outermost group `q` of a phrase, and the phrase with a value in its place. -/
structure FirstGroup (p q : Phrase) (filled : Word → Phrase) : Prop where
  groups (w : Word) : p.groups = q :: (filled w).groups
  depth (w : Word) : q.depth + (filled w).depth < p.depth
  names (w : Word) (t : Text) : t ∈ p.names ↔ t ∈ q.names ∨ t ∈ (filled w).names
  text : ∃ lead rest, (∀ ch ∈ lead, isPlain ch = true) ∧
    (∀ ch ∈ lead.getLast?, Group.isNameChar ch = false ∧ ch.utf8Size = 1) ∧
    p.text = lead ++ '(' :: (q.text ++ ')' :: rest) ∧
    ∀ w, (filled w).text = lead ++ (Numeral.decimal w.toNat ++ rest)

/-- The value of a group as an atom in its place. -/
def value (before after : Pad) (w : Word) : Phrase :=
  .atom ⟨before, Numeral.decimal w.toNat, after, isWordChar_decimal w, Numeral.decimal_ne_nil _⟩

theorem names_value (before after : Pad) (w : Word) : (value before after w).names = [] := by
  have hd : (Numeral.decimal w.toNat).head?.any Char.isDigit = true := by
    cases hh : (Numeral.decimal w.toNat).head? with
    | none => exact absurd (List.head?_eq_none_iff.mp hh) (Numeral.decimal_ne_nil _)
    | some ch => exact Numeral.isDigit_of_mem_decimal (List.mem_of_head? hh)
  simp [value, names, isName, hd]

theorem isPlain_text (h : p.groups = []) : ∀ ch ∈ p.text, isPlain ch = true := by
  obtain ⟨first, rest, ht, -⟩ := exists_chain h
  rw [ht]
  exact fun _ hc => isPlain_of_mem_chainText hc

theorem exists_firstGroup (h : p.groups ≠ []) : ∃ q filled, FirstGroup p q filled := by
  induction p with
  | atom a => exact absurd rfl h
  | group before inner after =>
    refine ⟨inner, value before after, fun _ => rfl, fun _ => Nat.lt_succ_self _, fun w t => ?_,
      before.text, after.text, isPlain_pad before, fun ch hc => ?_, rfl, fun w => ?_⟩
    · rw [names_value]
      simp [names]
    · have hp := before.isPad ch (List.mem_of_getLast? hc)
      simp only [isPad, Bool.and_eq_true, beq_iff_eq] at hp
      refine ⟨?_, hp.2⟩
      rw [← Bool.not_eq_true]
      intro hn
      have := Text.isBlank_of_isWordChar (c := ch) (by simp [isWordChar, hn])
      rw [hp.1] at this
      cases this
    · simp [value, text, Atom.text]
  | binary left op right ihl ihr =>
    by_cases hl : left.groups = []
    · have hr : right.groups ≠ [] := by
        intro hr
        exact h (by rw [groups, hl, hr, List.append_nil])
      obtain ⟨q, filled, hq⟩ := ihr hr
      obtain ⟨lead, rest, hlead, hlast, htext, hfilled⟩ := hq.text
      refine ⟨q, fun w => .binary left op (filled w), fun w => ?_, fun w => ?_, fun w t => ?_,
        left.text ++ (op.symbol ++ lead), rest, fun ch hc => ?_, fun ch hc => ?_, ?_, fun w => ?_⟩
      · rw [groups, groups, hl, hq.groups w]
        rfl
      · have := hq.depth w
        simp only [depth]
        omega
      · simp only [names, List.mem_append, hq.names w t]
        exact or_left_comm
      · rw [List.mem_append, List.mem_append] at hc
        rcases hc with hc | hc | hc
        · exact isPlain_text hl ch hc
        · exact isPlain_of_mem_symbol hc
        · exact hlead ch hc
      · rcases eq_or_ne lead [] with rfl | hne
        · rw [List.append_nil, List.getLast?_append_of_ne_nil _
            (List.ne_nil_of_length_pos op.length_symbol_pos)] at hc
          revert hc
          cases op <;> simp [Operator.symbol] <;> rintro rfl <;> decide
        · rw [← List.append_assoc, List.getLast?_append_of_ne_nil _ hne] at hc
          exact hlast ch hc
      · simp [text, htext]
      · simp [text, hfilled]
    · obtain ⟨q, filled, hq⟩ := ihl hl
      obtain ⟨lead, rest, hlead, hlast, htext, hfilled⟩ := hq.text
      refine ⟨q, fun w => .binary (filled w) op right, fun w => ?_, fun w => ?_, fun w t => ?_,
        lead, rest ++ (op.symbol ++ right.text), hlead, hlast, ?_, fun w => ?_⟩
      · rw [groups, groups, hq.groups w]
        rfl
      · have := hq.depth w
        simp only [depth]
        omega
      · simp only [names, List.mem_append, hq.names w t]
        exact or_assoc
      · simp [text, htext]
      · simp [text, hfilled]

theorem FirstGroup.eval {q : Phrase} {filled : Word → Phrase} (h : FirstGroup p q filled)
    (hf : c.hooks.function? [] = none) {r : Result} (hr : Expr.eval c q.text = .ok r) :
    Expr.eval c p.text =
      if r.ok then (Expr.eval c (filled r.value).text).map (·.absorb r) else .ok r := by
  obtain ⟨lead, rest, hlead, hlast, htext, hfilled⟩ := h.text
  rw [htext, hfilled]
  exact eval_fill hf hlead hlast q.balanced_text hr

/-- The evaluation of a phrase is never aborted. -/
theorem exists_eval (hf : c.hooks.function? [] = none) (p : Phrase)
    (hv : ∀ t ∈ p.names, c.hooks.value? t = none) : ∃ r, Expr.eval c p.text = .ok r := by
  induction hn : p.depth using Nat.strong_induction_on generalizing p with
  | _ n ih =>
    by_cases hg : p.groups = []
    · obtain ⟨first, rest, ht, hnames⟩ := exists_chain hg
      obtain ⟨r, hr, -⟩ := exists_eval_chainText (c := c) first rest fun t ht hname =>
        hv t ((hnames t).mpr ⟨ht, hname⟩)
      exact ⟨r, ht ▸ hr⟩
    · obtain ⟨q, filled, hq⟩ := exists_firstGroup hg
      have hlt (w : Word) : q.depth < n ∧ (filled w).depth < n := by
        have := hq.depth w
        omega
      obtain ⟨s, hs⟩ := ih q.depth (hlt 0).1 q (fun t ht => hv t ((hq.names 0 t).mpr (.inl ht))) rfl
      rw [hq.eval hf hs]
      split
      · obtain ⟨r, hr⟩ := ih _ (hlt s.value).2 (filled s.value)
          (fun t ht => hv t ((hq.names s.value t).mpr (.inr ht))) rfl
        exact ⟨r.absorb s, by rw [hr]; rfl⟩
      · exact ⟨s, rfl⟩

/-- What the result `r` of a phrase records. -/
structure Records (c : Context) (p : Phrase) (r : Result) : Prop where
  complete : (∀ q ∈ p.groups, q.HasValue c) → ∀ n, n ∈ r.references ↔ n ∈ p.names.map c.lookedUp
  cut : ∀ gs q hs s, p.groups = gs ++ q :: hs → (∀ g ∈ gs, g.HasValue c) →
    Expr.eval c q.text = .ok s → s.ok = false →
    r.ok = false ∧ ∀ n, n ∈ r.references ↔
      n ∈ s.references ∨ ∃ g ∈ gs, n ∈ g.names.map c.lookedUp

/-- Either all phrases of a list have values, or there is a first one without. -/
theorem all_or_first_failing (gs : List Phrase) (h : ∀ g ∈ gs, ∃ r, Expr.eval c g.text = .ok r) :
    (∀ g ∈ gs, g.HasValue c) ∨
      ∃ before q after s, gs = before ++ q :: after ∧ (∀ g ∈ before, g.HasValue c) ∧
        Expr.eval c q.text = .ok s ∧ s.ok = false := by
  induction gs with
  | nil => exact .inl (by simp)
  | cons g gs ih =>
    obtain ⟨r, hr⟩ := h g (by simp)
    cases hok : r.ok with
    | false => exact .inr ⟨[], g, gs, r, rfl, by simp, hr, hok⟩
    | true =>
      have hg : g.HasValue c := ⟨r, hr, hok⟩
      rcases ih fun g hg => h g (by simp [hg]) with hall | ⟨before, q, after, s, rfl, hb, hs, hf⟩
      · exact .inl (by simpa [hg] using hall)
      · exact .inr ⟨g :: before, q, after, s, rfl, by simpa [hg] using hb, hs, hf⟩

theorem names_of_mem_groups {q : Phrase} (h : q ∈ p.groups) : ∀ t ∈ q.names, t ∈ p.names := by
  induction p with
  | atom a => cases h
  | group before inner after =>
    obtain rfl := List.mem_singleton.mp h
    exact fun _ ht => ht
  | binary left op right ihl ihr =>
    intro t ht
    rcases List.mem_append.mp h with h | h
    · exact List.mem_append_left _ (ihl h t ht)
    · exact List.mem_append_right _ (ihr h t ht)

/-- A phrase with a value has recorded all of its names. -/
theorem Records.of_hasValue {r : Result} (h : p.Records c r) (hf : c.hooks.function? [] = none)
    (hv : ∀ t ∈ p.names, c.hooks.value? t = none) (hok : r.ok = true) (n : Text) :
    n ∈ r.references ↔ n ∈ p.names.map c.lookedUp := by
  have hall := all_or_first_failing (c := c) p.groups fun g hg =>
    exists_eval hf g fun t ht => hv t (names_of_mem_groups hg t ht)
  rcases hall with hall | ⟨before, q, after, s, hgs, hb, hs, hfail⟩
  · exact h.complete hall n
  · rw [(h.cut before q after s hgs hb hs hfail).1] at hok
    cases hok

theorem records_eval (hf : c.hooks.function? [] = none) (p : Phrase)
    (hv : ∀ t ∈ p.names, c.hooks.value? t = none) {r : Result} (hr : Expr.eval c p.text = .ok r) :
    p.Records c r := by
  induction hn : p.depth using Nat.strong_induction_on generalizing p r with
  | _ n ih =>
    by_cases hg : p.groups = []
    · obtain ⟨first, rest, ht, hnames⟩ := exists_chain hg
      obtain ⟨r', hr', hrefs⟩ := exists_eval_chainText (c := c) first rest fun t ht hname =>
        hv t ((hnames t).mpr ⟨ht, hname⟩)
      obtain rfl : r' = r := Except.ok.inj (hr'.symm.trans (ht ▸ hr))
      refine ⟨fun _ n => ?_, fun gs q hs s hgs => ?_⟩
      · simp only [hrefs, List.mem_map, hnames, and_assoc, eq_comm]
      · simp [hg] at hgs
    · obtain ⟨q, filled, hq⟩ := exists_firstGroup hg
      have hlt (w : Word) : q.depth < n ∧ (filled w).depth < n := by
        have := hq.depth w
        omega
      have hvq : ∀ t ∈ q.names, c.hooks.value? t = none := fun t ht =>
        hv t ((hq.names 0 t).mpr (.inl ht))
      obtain ⟨s, hs⟩ := exists_eval hf q hvq
      have hrec := ih q.depth (hlt 0).1 q hvq hs rfl
      rw [hq.eval hf hs] at hr
      cases hok : s.ok with
      | false =>
        -- The first group ends the evaluation.
        rw [hok, if_neg (by decide)] at hr
        obtain rfl := Except.ok.inj hr
        have hno : ¬ q.HasValue c := by
          rintro ⟨x, hx, hxok⟩
          obtain rfl := Except.ok.inj (hx.symm.trans hs)
          rw [hok] at hxok
          cases hxok
        refine ⟨fun hall => ?_, fun gs x hs' y hgs hvals hy hyok => ⟨hok, fun n => ?_⟩⟩
        · exact absurd (hall q (by rw [hq.groups 0]; simp)) hno
        · rw [hq.groups 0] at hgs
          cases gs with
          | nil =>
            obtain rfl := (List.cons_eq_cons.mp hgs).1
            obtain rfl := Except.ok.inj (hy.symm.trans hs)
            simp
          | cons g gs =>
            obtain rfl := (List.cons_eq_cons.mp hgs).1
            exact absurd (hvals q (by simp)) hno
      | true =>
        -- The value of the first group takes its place.
        rw [hok, if_pos rfl] at hr
        obtain ⟨r', hr', rfl⟩ := Answer.map_eq_ok.mp hr
        have hrec' := ih _ (hlt s.value).2 (filled s.value)
          (fun t ht => hv t ((hq.names s.value t).mpr (.inr ht))) hr' rfl
        have hrefs := hrec.of_hasValue hf hvq hok
        have hunion (n : Text) : n ∈ (r'.absorb s).references ↔
            n ∈ r'.references ∨ n ∈ q.names.map c.lookedUp := by
          rw [← hrefs n]
          exact NameSet.mem_union
        have hgroups := hq.groups s.value
        refine ⟨fun hall n => ?_, fun gs x hs' y hgs hvals hy hyok => ?_⟩
        · rw [hunion, hrec'.complete (fun g hg => hall g (by rw [hgroups]; simp [hg]))]
          simp only [List.mem_map, hq.names s.value, or_and_right, exists_or]
          exact or_comm
        · rw [hgroups] at hgs
          cases gs with
          | nil =>
            obtain rfl := (List.cons_eq_cons.mp hgs).1
            obtain rfl := Except.ok.inj (hy.symm.trans hs)
            rw [hok] at hyok
            cases hyok
          | cons g gs =>
            obtain ⟨rfl, hrest⟩ := List.cons_eq_cons.mp hgs
            obtain ⟨hfail, hcut⟩ := hrec'.cut gs x hs' y hrest
              (fun g hg => hvals g (by simp [hg])) hy hyok
            refine ⟨hfail, fun n => ?_⟩
            rw [hunion, hcut]
            simp only [List.mem_cons, exists_eq_or_imp]
            exact or_assoc.trans (or_congr_right or_comm)

/-- References are complete unless a group in parentheses has no value. Then the evaluation ends
with that group: of the whole phrase only the names of the groups before it, and what the group itself
records, are looked up. -/
theorem mem_references_iff (hf : c.hooks.function? [] = none) (p : Phrase)
    (hv : ∀ t ∈ p.names, c.hooks.value? t = none) :
    ∃ r, Expr.eval c p.text = .ok r ∧
      ((∀ q ∈ p.groups, q.HasValue c) →
        (∀ n, n ∈ r.references ↔ n ∈ p.names.map c.lookedUp) ∧
        ∀ p' r', p.Wraps p' → (∀ q ∈ p'.groups, q.HasValue c) → Expr.eval c p'.text = .ok r' →
          ∀ n, n ∈ r'.references ↔ n ∈ r.references) ∧
      ∀ gs q hs s, p.groups = gs ++ q :: hs → (∀ g ∈ gs, g.HasValue c) →
        Expr.eval c q.text = .ok s → s.ok = false →
        r.ok = false ∧ ∀ n, n ∈ r.references ↔
          n ∈ s.references ∨ ∃ g ∈ gs, n ∈ g.names.map c.lookedUp := by
  obtain ⟨r, hr⟩ := exists_eval hf p hv
  have hrec := records_eval hf p hv hr
  refine ⟨r, hr, fun hall => ⟨hrec.complete hall, fun p' r' hw hall' hr' n => ?_⟩, hrec.cut⟩
  have hrec' := records_eval hf p' (by rwa [hw.names_eq]) hr'
  rw [hrec'.complete hall', hrec.complete hall, hw.names_eq]

/-- A word without white space around it. -/
def ofWord (t : Text) (hw : t.all isWordChar = true) (hne : t ≠ []) : Phrase :=
  .atom { word := t, isWord := List.all_eq_true.mp hw, ne_nil := hne }

/-- The phrase `(A+2)*.x`. -/
def groupedSample : Phrase :=
  .binary (.group .none (.binary (ofWord ['A'] (by decide) (by decide)) .add
    (ofWord ['2'] (by decide) (by decide))) .none) .mul (ofWord ['.', 'x'] (by decide) (by decide))

/-- `a` is an equate, and the label before the expression is `Main`. -/
def groupedContext : Context where
  symbols := { equates := [(['a'], 1)] }
  hooks := {}
  position := { scope := some "Main".toList }
  literal _ := .ok none

theorem mem_references_iff_sample :
    ∃ r, Expr.eval groupedContext "(A+2)*.x".toList = .ok r ∧
      ∀ n, n ∈ r.references ↔ n ∈ [['a'], "main_x".toList] := by
  obtain ⟨r, hr, hall, -⟩ := mem_references_iff (c := groupedContext) rfl groupedSample
    (by simp [Hooks.value?, groupedContext])
  refine ⟨r, hr, (hall ?_).1⟩
  intro q hq
  obtain rfl := List.mem_singleton.mp hq
  exact Answer.exists_ok (p := Result.ok) (by decide +kernel)

/-- The sum of two names that are not defined, and the same with parentheses around the first. -/
def undefinedSum : Phrase :=
  .binary (ofWord ['x'] (by decide) (by decide)) .add (ofWord ['y'] (by decide) (by decide))

def wrappedSum : Phrase :=
  .binary (.group .none (ofWord ['x'] (by decide) (by decide)) .none) .add
    (ofWord ['y'] (by decide) (by decide))

/-- The parentheses have the effect that the second name is not looked up. -/
theorem references_of_wrapped_operand :
    undefinedSum.Wraps wrappedSum ∧ wrappedSum.names = [['x'], ['y']] ∧
      (Expr.eval ⟨{}, {}, {}, fun _ => .ok none⟩ undefinedSum.text).toOption.map
        Result.references = some [['x'], ['y']] ∧
      (Expr.eval ⟨{}, {}, {}, fun _ => .ok none⟩ wrappedSum.text).toOption.map
        Result.references = some [['x']] :=
  ⟨.left _ _ (.here _ _ _), by decide, by decide +kernel, by decide +kernel⟩

end Phrase

end Expr

end Dcpu
