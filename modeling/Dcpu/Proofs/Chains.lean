import Dcpu.Proofs.Substitution
import Mathlib.Data.Nat.Init

/-! Chains of names and numbers with operators between them. A chain is always split at a whole
operator, so both sides are chains again, and every name of it is looked up. -/
namespace Dcpu

theorem Operator.symbol_inj {o p : Operator} (h : o.symbol = p.symbol) : o = p := by
  have hfind (q : Operator) : all.find? (fun r => r.symbol == q.symbol) = some q := by
    cases q <;> rfl
  have := hfind o
  rw [h, hfind p] at this
  exact (Option.some.inj this).symm

namespace Expr

open Text (isWordChar isBlank freed)

/-- White space of ASCII. -/
def isPad (c : Char) : Bool := isBlank c && c.utf8Size == 1

/-- The characters of names, of numbers and of the white space around them. -/
def isSoft (c : Char) : Bool := isWordChar c || isPad c

theorem isSoft_of_mem_symbol {op : Operator} {c : Char} (h : c ∈ op.symbol) : isSoft c = false := by
  have hall : op.symbol.all (fun c => !isSoft c) = true := by
    cases op <;> decide
  simpa using List.all_eq_true.mp hall c h

/-- White space of ASCII, which may be missing. -/
structure Pad where
  text : Text
  isPad : ∀ c ∈ text, isPad c = true

def Pad.none : Pad := ⟨[], by simp⟩

theorem Pad.isBlank (p : Pad) {c : Char} (h : c ∈ p.text) : isBlank c = true :=
  (Bool.and_eq_true_iff.mp (p.isPad c h)).1

/-- A name or a number with white space around it. -/
structure Atom where
  before : Pad := .none
  word : Text
  after : Pad := .none
  isWord : ∀ c ∈ word, isWordChar c = true
  ne_nil : word ≠ []

namespace Atom

variable {a : Atom} {c : Char}

def text (a : Atom) : Text := a.before.text ++ a.word ++ a.after.text

theorem isSoft_of_mem_text (h : c ∈ a.text) : isSoft c = true := by
  rw [text, List.mem_append, List.mem_append] at h
  rcases h with (h | h) | h
  · simp [isSoft, a.before.isPad c h]
  · simp [isSoft, a.isWord c h]
  · simp [isSoft, a.after.isPad c h]

theorem text_ne_nil (a : Atom) : a.text ≠ [] := by
  simp [text, a.ne_nil]

/-- Without the white space on the left. -/
def flushLeft (a : Atom) : Atom := { a with before := .none }

/-- Without the white space on the right. -/
def flushRight (a : Atom) : Atom := { a with after := .none }

theorem isBlank_of_mem_word (h : c ∈ a.word) : isBlank c = false :=
  Text.isBlank_of_isWordChar (a.isWord c h)

end Atom

/-- A chain starts with an atom, and every further one stands behind an operator. -/
def chainText (first : Atom) (rest : List (Operator × Atom)) : Text :=
  first.text ++ rest.flatMap fun x => x.1.symbol ++ x.2.text

variable {first : Atom} {rest : List (Operator × Atom)}

theorem chainText_nil (first : Atom) : chainText first [] = first.text := List.append_nil _

theorem chainText_cons (first : Atom) (o : Operator) (a : Atom) (rest : List (Operator × Atom)) :
    chainText first ((o, a) :: rest) = first.text ++ (o.symbol ++ chainText a rest) := by
  simp [chainText]

theorem chainText_append (first : Atom) (before : List (Operator × Atom)) (o : Operator) (a : Atom)
    (after : List (Operator × Atom)) :
    chainText first (before ++ (o, a) :: after) =
      chainText first before ++ (o.symbol ++ chainText a after) := by
  simp [chainText]

section Splitting

/-- What is known of the best split after some operators have been tried: none of them that is
longer starts as early. -/
def Chosen (ms : List Mark) (tried : List Operator) : Option (Nat × Operator) → Prop
  | none => ∀ o ∈ tried, siteOf? o.symbol ms = none
  | some (start, chosen) => ∀ o ∈ tried, chosen.symbol.length < o.symbol.length →
      ∀ i, siteOf? o.symbol ms = some i → start < i

theorem Chosen.betterSplit {ms : List Mark} {tried : List Operator}
    {best : Option (Nat × Operator)} (h : Chosen ms tried best) (op : Operator) :
    Chosen ms (tried ++ [op]) (betterSplit ms best op) := by
  unfold Expr.betterSplit
  cases hs : siteOf? op.symbol ms with
  | none =>
    cases best with
    | none =>
      intro o ho
      rcases List.mem_append.mp ho with ho | ho
      · exact h o ho
      · rw [List.mem_singleton.mp ho, hs]
    | some b =>
      obtain ⟨start, chosen⟩ := b
      intro o ho hlen i hi
      rcases List.mem_append.mp ho with ho | ho
      · exact h o ho hlen i hi
      · rw [List.mem_singleton.mp ho, hs] at hi
        cases hi
  | some i =>
    cases best with
    | none =>
      intro o ho hlen j hj
      rcases List.mem_append.mp ho with ho | ho
      · rw [h o ho] at hj
        cases hj
      · rw [List.mem_singleton.mp ho] at hlen
        exact absurd hlen (Nat.lt_irrefl _)
    | some b =>
      obtain ⟨start, chosen⟩ := b
      dsimp only
      split
      next hkeep =>
        intro o ho hlen j hj
        rcases List.mem_append.mp ho with ho | ho
        · exact h o ho hlen j hj
        · rw [List.mem_singleton.mp ho] at hlen hj
          obtain rfl : i = j := Option.some.inj (hs.symm.trans hj)
          simp only [Bool.or_eq_true, decide_eq_true_eq] at hkeep
          omega
      next htake =>
        simp only [Bool.or_eq_true, decide_eq_true_eq, not_or] at htake
        intro o ho hlen j hj
        rcases List.mem_append.mp ho with ho | ho
        · have := h o ho (by omega) j hj
          omega
        · rw [List.mem_singleton.mp ho] at hlen
          exact absurd hlen (Nat.lt_irrefl _)

theorem chosen_foldl {ms : List Mark} (ops : List Operator) {tried : List Operator}
    {best : Option (Nat × Operator)} (h : Chosen ms tried best) :
    Chosen ms (tried ++ ops) (ops.foldl (betterSplit ms) best) := by
  induction ops generalizing tried best with
  | nil => rwa [List.append_nil]
  | cons op ops ih =>
    have := ih (h.betterSplit op)
    rwa [List.append_assoc, List.singleton_append] at this

theorem startsWith_append (symbol t : Text) : startsWith symbol (freed (symbol ++ t)) = true := by
  induction symbol with
  | nil => rfl
  | cons c symbol ih =>
    change (c == c && startsWith symbol (freed (symbol ++ t))) = true
    rw [ih, beq_self_eq_true]
    rfl

/-- A symbol is found where it stands, if not before. -/
theorem exists_siteOf?_le {symbol : Text} (hne : symbol ≠ []) (before after : Text) :
    ∃ i ≤ before.length, siteOf? symbol (freed (before ++ (symbol ++ after))) = some i := by
  induction before with
  | nil =>
    have hs := startsWith_append symbol after
    cases symbol with
    | nil => exact absurd rfl hne
    | cons c symbol => exact ⟨0, Nat.le_refl _, if_pos hs⟩
  | cons c before ih =>
    obtain ⟨i, hi, hs⟩ := ih
    rw [List.cons_append, freed, List.map_cons, ← freed, siteOf?, hs]
    split
    · exact ⟨0, Nat.zero_le _, rfl⟩
    · exact ⟨i + 1, by simpa using hi, rfl⟩

theorem exists_symbol_eq_cons (op : Operator) : ∃ c symbol, op.symbol = c :: symbol :=
  List.exists_cons_of_ne_nil (List.ne_nil_of_length_pos op.length_symbol_pos)

/-- No character of a symbol stands in an atom. -/
theorem not_mem_text_of_mem_symbol {op : Operator} {c : Char} (ho : c ∈ op.symbol) (a : Atom) :
    c ∉ a.text := by
  intro ha
  have := a.isSoft_of_mem_text ha
  rw [isSoft_of_mem_symbol ho] at this
  cases this

/-- A symbol does not start in an atom. -/
theorem occurrence_behind_atom {a : Atom} {op : Operator} {t before after : Text}
    (h : a.text ++ t = before ++ (op.symbol ++ after)) :
    ∃ behind, before = a.text ++ behind ∧ t = behind ++ (op.symbol ++ after) := by
  rcases List.append_eq_append_iff.mp h with h | ⟨inside, ha, h⟩
  · exact h
  · cases inside with
    | nil => exact ⟨[], by simpa using ha.symm, by simpa using h.symm⟩
    | cons c inside =>
      obtain ⟨x, symbol, hop⟩ := exists_symbol_eq_cons op
      obtain rfl : x = c := by
        rw [hop] at h
        exact (List.cons_eq_cons.mp h).1
      have hx : x ∈ a.text := by rw [ha]; simp
      exact absurd hx (not_mem_text_of_mem_symbol (by rw [hop]; simp) a)

/-- A symbol that occurs in a chain is part of one of its operators. -/
theorem exists_operator_of_occurrence {op : Operator} {before after : Text}
    (h : chainText first rest = before ++ (op.symbol ++ after)) :
    ∃ init o a tail x y, rest = init ++ (o, a) :: tail ∧ before = chainText first init ++ x ∧
      o.symbol = x ++ (op.symbol ++ y) := by
  induction rest generalizing first before with
  | nil =>
    obtain ⟨behind, -, hnil⟩ := occurrence_behind_atom (t := []) h
    have := op.length_symbol_pos
    simp only [List.nil_eq, List.append_eq_nil_iff] at hnil
    rw [hnil.2.1] at this
    cases this
  | cons x rest ih =>
    obtain ⟨o, a⟩ := x
    rw [chainText_cons] at h
    obtain ⟨behind, rfl, hbehind⟩ := occurrence_behind_atom h
    rcases List.append_eq_append_iff.mp hbehind with
      ⟨further, rfl, hfurther⟩ | ⟨inside, hsymbol, hinside⟩
    · obtain ⟨init, p, b, tail, x, y, rfl, rfl, hp⟩ := ih hfurther
      refine ⟨(o, a) :: init, p, b, tail, x, y, rfl, ?_, hp⟩
      rw [chainText_cons]
      simp
    · rcases List.append_eq_append_iff.mp hinside with ⟨y, hy, -⟩ | ⟨y, hy, hchain⟩
      · exact ⟨[], o, a, rest, behind, y, rfl, by rw [chainText_nil], by rw [hsymbol, hy]⟩
      · cases y with
        | nil => exact ⟨[], o, a, rest, behind, [], rfl, by rw [chainText_nil], by
            rw [hsymbol, hy, List.append_nil, List.append_nil]⟩
        | cons z y =>
          -- The symbol would reach into the atom behind the operator.
          have hz : z ∈ a.text := by
            obtain ⟨w, ws, hw⟩ := List.exists_cons_of_ne_nil a.text_ne_nil
            rw [chainText, hw] at hchain
            rw [hw, (List.cons_eq_cons.mp hchain).1]
            simp
          exact absurd hz (not_mem_text_of_mem_symbol (by rw [hy]; simp) a)

/-- The characters that the scans of an expression look for. -/
def scannedChars : Text := ['"', '\'', '(', ')', '{', '}', '$']

def isPlain (c : Char) : Bool := !scannedChars.contains c

theorem ne_of_isPlain {c x : Char} (hc : isPlain c = true) (hx : isPlain x = false) : c ≠ x := by
  rintro rfl
  rw [hc] at hx
  cases hx

theorem isPlain_of_mem_symbol {op : Operator} {c : Char} (h : c ∈ op.symbol) :
    isPlain c = true := by
  have hall : op.symbol.all isPlain = true := by
    cases op <;> decide
  exact List.all_eq_true.mp hall c h

theorem isPlain_of_isSoft {c : Char} (h : isSoft c = true) : isPlain c = true := by
  rw [isPlain, Bool.not_eq_true', ← Bool.not_eq_true, List.contains_iff_mem]
  intro hc
  have hall : scannedChars.all (fun c => !isSoft c) = true := by decide
  have := List.all_eq_true.mp hall c hc
  rw [h] at this
  cases this

theorem scannedAs_plain {t : Text} (h : ∀ c ∈ t, isPlain c = true) : ScannedAs t (freed t) where
  marked rest := Text.marked_append_of_free fun c hc =>
    ⟨ne_of_isPlain (h c hc) (by decide), ne_of_isPlain (h c hc) (by decide)⟩
  inert m hm := by
    obtain ⟨c, hc, rfl⟩ := List.mem_map.mp hm
    intro x hx
    have hall : ['(', ')', '{', '}'].all (fun x => !isPlain x) = true := by decide
    have hx := List.all_eq_true.mp hall x hx
    rw [Bool.not_eq_true'] at hx
    simp [Mark.isOpenly, ne_of_isPlain (h c hc) hx]

theorem sites_plain {t : Text} (h : ∀ c ∈ t, isPlain c = true) : sites t = freed t := by
  rw [sites, (scannedAs_plain h).marked_self]
  refine sitesFrom_freed fun c hc => ⟨?_, ?_, ?_⟩ <;> exact ne_of_isPlain (h c hc) (by decide)

theorem isPlain_of_mem_chainText {c : Char} (h : c ∈ chainText first rest) : isPlain c = true := by
  rw [chainText, List.mem_append, List.mem_flatMap] at h
  rcases h with h | ⟨⟨o, a⟩, -, h⟩
  · exact isPlain_of_isSoft (first.isSoft_of_mem_text h)
  · rcases List.mem_append.mp h with h | h
    · exact isPlain_of_mem_symbol h
    · exact isPlain_of_isSoft (a.isSoft_of_mem_text h)

/-- A chain is split at one of its operators. -/
theorem split?_chainText (first : Atom) (hne : rest ≠ []) :
    ∃ before o a after, rest = before ++ (o, a) :: after ∧
      split? (chainText first rest) = some ⟨chainText first before, o, chainText a after⟩ := by
  have hsites := sites_plain fun c (h : c ∈ chainText first rest) => isPlain_of_mem_chainText h
  have hfound (before : List (Operator × Atom)) (o : Operator) (a : Atom)
      (after : List (Operator × Atom)) (hr : rest = before ++ (o, a) :: after) :
      ∃ i ≤ (chainText first before).length,
        siteOf? o.symbol (sites (chainText first rest)) = some i := by
    rw [hsites, hr, chainText_append]
    exact exists_siteOf?_le (List.ne_nil_of_length_pos o.length_symbol_pos) _ _
  have hnone : Chosen (sites (chainText first rest)) [] none := by simp [Chosen]
  have hchosen := chosen_foldl Operator.all hnone
  rw [List.nil_append] at hchosen
  cases hbest : Operator.all.foldl (betterSplit (sites (chainText first rest))) none with
  | none =>
    obtain ⟨⟨o, a⟩, after, rfl⟩ := List.exists_cons_of_ne_nil hne
    obtain ⟨i, -, hi⟩ := hfound [] o a after rfl
    rw [hbest] at hchosen
    rw [hchosen o o.mem_all] at hi
    cases hi
  | some best =>
    obtain ⟨start, op⟩ := best
    rw [hbest] at hchosen
    have hsplit : split? (chainText first rest) = some ⟨(chainText first rest).take start, op,
        (chainText first rest).drop (start + op.symbol.length)⟩ := by
      rw [split?, hbest]
      rfl
    have htext := text_of_split? hsplit
    dsimp only at htext
    rw [List.append_assoc] at htext
    have hstart : ((chainText first rest).take start).length = start := by
      have hl := congrArg List.length htext
      have hp := op.length_symbol_pos
      simp only [List.length_append, List.length_take, List.length_drop] at hl ⊢
      omega
    obtain ⟨before, o, a, after, x, y, hr, hx, ho⟩ := exists_operator_of_occurrence htext.symm
    obtain ⟨i, hi, hsite⟩ := hfound before o a after hr
    have hlen := congrArg List.length ho
    have hxlen := congrArg List.length hx
    rw [hstart, List.length_append] at hxlen
    simp only [List.length_append] at hlen
    -- The operator cannot be longer than the chosen symbol, since it would have been chosen.
    have hshort : ¬ op.symbol.length < o.symbol.length := by
      intro hlt
      have := hchosen o o.mem_all hlt i hsite
      omega
    obtain rfl : x = [] := List.eq_nil_of_length_eq_zero (by omega)
    obtain rfl : y = [] := List.eq_nil_of_length_eq_zero (by omega)
    obtain rfl : o = op := Operator.symbol_inj (by simpa using ho)
    rw [List.append_nil] at hx
    refine ⟨before, o, a, after, hr, ?_⟩
    rw [hsplit, hx]
    have hdrop : (chainText first rest).drop (start + o.symbol.length) = chainText a after := by
      rw [hx] at hstart
      rw [hr, chainText_append, ← hstart, ← List.drop_drop, List.drop_left, List.drop_left]
    rw [hdrop]

end Splitting

section Trimming

/-- White space at both ends is dropped. -/
theorem trim_padded (a b : Pad) {t : Text} (first : ∀ c ∈ t.head?, isBlank c = false)
    (last : ∀ c ∈ t.getLast?, isBlank c = false) (hne : t ≠ []) :
    Text.trim (a.text ++ t ++ b.text) = t := by
  obtain ⟨c, u, rfl⟩ := List.exists_cons_of_ne_nil hne
  have hc : ¬ isBlank c = true := by simp [first c rfl]
  have hstart : Text.trimStart (a.text ++ (c :: u) ++ b.text) = c :: u ++ b.text := by
    rw [Text.trimStart, List.append_assoc, List.dropWhile_append_of_pos fun _ => a.isBlank,
      List.cons_append, List.dropWhile_cons_of_neg hc]
  have htrim := Text.trim_eq_self first last
  rw [Text.trim, Text.trimStart, List.dropWhile_cons_of_neg hc] at htrim
  rw [Text.trim, hstart, Text.trimEnd, List.reverse_append, List.dropWhile_append_of_pos]
  · exact htrim
  · exact fun _ h => b.isBlank (List.mem_reverse.mp h)

/-- The names and numbers of a chain. -/
def chainWords (first : Atom) (rest : List (Operator × Atom)) : List Text :=
  first.word :: rest.map fun x => x.2.word

theorem chainWords_append (first : Atom) (before : List (Operator × Atom)) (o : Operator) (a : Atom)
    (after : List (Operator × Atom)) :
    chainWords first (before ++ (o, a) :: after) =
      chainWords first before ++ chainWords a after := by
  simp [chainWords]

/-- A chain has no white space at its ends. -/
structure Flush (first : Atom) (rest : List (Operator × Atom)) : Prop where
  head : ∀ c ∈ (chainText first rest).head?, isBlank c = false
  last : ∀ c ∈ (chainText first rest).getLast?, isBlank c = false

theorem chainText_ne_nil (first : Atom) (rest : List (Operator × Atom)) :
    chainText first rest ≠ [] :=
  fun h => first.text_ne_nil (List.append_eq_nil_iff.mp h).1

theorem Atom.mem_word_of_head? {a : Atom} (ha : a.before = .none) {t : Text} {c : Char}
    (h : c ∈ (a.text ++ t).head?) : c ∈ a.word := by
  rw [text, ha, Pad.none, List.nil_append, List.append_assoc,
    List.head?_append_of_ne_nil _ a.ne_nil] at h
  exact List.mem_of_head? h

theorem Atom.mem_word_of_getLast? {a : Atom} (ha : a.after = .none) {t : Text} {c : Char}
    (h : c ∈ (t ++ a.text).getLast?) : c ∈ a.word := by
  rw [text, ha, Pad.none, List.append_nil, ← List.append_assoc,
    List.getLast?_append_of_ne_nil _ a.ne_nil] at h
  exact List.mem_of_getLast? h

/-- A chain without the white space at its ends is a chain of the same words. -/
theorem exists_flush (first : Atom) (rest : List (Operator × Atom)) :
    ∃ first' rest', Text.trim (chainText first rest) = chainText first' rest' ∧
      Flush first' rest' ∧ rest'.length = rest.length ∧
      chainWords first' rest' = chainWords first rest := by
  rcases List.eq_nil_or_concat rest with rfl | ⟨init, ⟨o, a⟩, rfl⟩
  · have hflush : Flush first.flushLeft.flushRight [] := by
      refine ⟨fun c hc => ?_, fun c hc => ?_⟩
      · exact first.isBlank_of_mem_word (first.flushLeft.flushRight.mem_word_of_head? rfl hc)
      · rw [chainText_nil] at hc
        exact first.isBlank_of_mem_word
          (first.flushLeft.flushRight.mem_word_of_getLast? (t := []) rfl hc)
    refine ⟨_, [], ?_, hflush, rfl, rfl⟩
    have h := trim_padded first.before first.after hflush.head hflush.last
      (chainText_ne_nil _ _)
    simpa [chainText, Atom.text, Atom.flushLeft, Atom.flushRight, Pad.none] using h
  · rw [List.concat_eq_append]
    have hflush : Flush first.flushLeft (init ++ [(o, a.flushRight)]) := by
      refine ⟨fun c hc => ?_, fun c hc => ?_⟩
      · exact first.isBlank_of_mem_word (first.flushLeft.mem_word_of_head? rfl hc)
      · rw [chainText_append, chainText_nil, ← List.append_assoc] at hc
        exact a.isBlank_of_mem_word (a.flushRight.mem_word_of_getLast? rfl hc)
    refine ⟨_, _, ?_, hflush, by simp, by simp [chainWords, Atom.flushLeft, Atom.flushRight]⟩
    have h := trim_padded first.before a.after hflush.head hflush.last
      (chainText_ne_nil _ _)
    simpa [chainText, Atom.text, Atom.flushLeft, Atom.flushRight, Pad.none] using h

end Trimming

section Evaluation

variable {c : Context}

theorem eval_of_trim_eq {t u : Text} (h : Text.trim t = Text.trim u) : eval c t = eval c u := by
  have hf : form t = form u := by rw [form, form, h]
  cases ht : form t with
  | empty => exact (eval_empty ht).trans (eval_empty (hf.symm.trans ht)).symm
  | complement operand => exact (eval_complement ht).trans (eval_complement (hf.symm.trans ht)).symm
  | negation operand => exact (eval_negation ht).trans (eval_negation (hf.symm.trans ht)).symm
  | binary s => exact (eval_binary ht).trans (eval_binary (hf.symm.trans ht)).symm
  | token t => exact (eval_token ht).trans (eval_token (hf.symm.trans ht)).symm
  | group g =>
    have hu := hf.symm.trans ht
    cases hw : g.followsWide with
    | true => exact (eval_wide ht hw).trans (eval_wide hu hw).symm
    | false =>
      cases hn : c.hooks.function? g.name with
      | none => exact (eval_group ht hw hn).trans (eval_group hu hw hn).symm
      | some f =>
        cases hv : f (Text.trim g.inner) c.symbols with
        | none => exact (eval_call_failed ht hw hn hv).trans (eval_call_failed hu hw hn hv).symm
        | some v => exact (eval_call ht hw hn hv).trans (eval_call hu hw hn hv).symm

/-- Names are looked up, while numbers and the two constants are not. -/
def isName (word : Text) : Bool :=
  !word.head?.any Char.isDigit && Text.lower word != "true".toList &&
    Text.lower word != "false".toList

/-- The spelling under which a name is looked up. -/
def Context.lookedUp (c : Context) (name : Text) : Text :=
  Text.lower (Name.qualify c.position.scope name)

theorem Context.mem_references_word (c : Context) (t n : Text) :
    n ∈ (c.word t).references ↔ isName t = true ∧ n = c.lookedUp t := by
  have hnil : ∀ w : Option Word, (Result.ofWord? w).references = [] := by
    rintro (- | w) <;> rfl
  unfold Context.word isName
  split
  next h => simp [h, hnil]
  next h =>
    split
    next ht => simp [ht, Result.ofWord]
    next ht =>
      split
      next hf => simp [hf, Result.ofWord]
      next hf =>
        have hn : (!t.head?.any Char.isDigit && Text.lower t != "true".toList &&
            Text.lower t != "false".toList) = true := by
          rw [Bool.not_eq_true] at h
          rw [h, bne_iff_ne.mpr ht, bne_iff_ne.mpr hf]
          rfl
        rw [hn]
        simp [Context.symbol, Context.lookedUp]

/-- A word is looked up if it is a name. -/
theorem Context.exists_token {t : Text} (hw : ∀ ch ∈ t, isWordChar ch = true)
    (hv : isName t = true → c.hooks.value? t = none) :
    ∃ r, c.token t = .ok r ∧ ∀ n, n ∈ r.references ↔ isName t = true ∧ n = c.lookedUp t := by
  cases hval : c.hooks.value? t with
  | none => exact ⟨_, token_word hw hval, c.mem_references_word t⟩
  | some w =>
    have hname : isName t = false := by
      rw [← Bool.not_eq_true]
      intro h
      rw [hv h] at hval
      cases hval
    refine ⟨.ofWord w, ?_, by simp [hname, Result.ofWord]⟩
    unfold token
    rw [hval]

theorem mem_references_combine (s : Split) (left right : Result) (n : Text) :
    n ∈ (combine s left right).references ↔ n ∈ left.references ∨ n ∈ right.references := by
  unfold combine
  split
  · exact NameSet.mem_union
  · have hnil : ∀ w : Option Word, (Result.ofWord? w).references = [] := by
      rintro (- | w) <;> rfl
    simp [Result.absorb, NameSet.mem_union, hnil]

/-- Every name of a chain is looked up, whatever its value and that of the chain. -/
theorem exists_eval_chainText (first : Atom) (rest : List (Operator × Atom))
    (hv : ∀ t ∈ chainWords first rest, isName t = true → c.hooks.value? t = none) :
    ∃ r, eval c (chainText first rest) = .ok r ∧
      ∀ n, n ∈ r.references ↔ ∃ t ∈ chainWords first rest, isName t = true ∧ n = c.lookedUp t := by
  -- Both sides of a split have fewer operators.
  induction hn : rest.length using Nat.strong_induction_on generalizing first rest with
  | _ n ih =>
    obtain ⟨first', rest', htrim, hflush, hlen, hwords⟩ := exists_flush first rest
    have hself : Text.trim (chainText first' rest') = chainText first' rest' :=
      Text.trim_eq_self hflush.head hflush.last
    rw [eval_of_trim_eq (htrim.trans hself.symm)]
    rw [← hwords] at hv ⊢
    rcases eq_or_ne rest' [] with rfl | hne
    · have hword : chainText first' [] = first'.word := by
        have h := trim_padded first'.before first'.after
          (fun _ hc => first'.isBlank_of_mem_word (List.mem_of_head? hc))
          (fun _ hc => first'.isBlank_of_mem_word (List.mem_of_getLast? hc)) first'.ne_nil
        rw [chainText_nil] at hself ⊢
        rw [← hself]
        exact h
      rw [hword, eval_token (form_word first'.ne_nil first'.isWord)]
      obtain ⟨r, hr, hrefs⟩ := Context.exists_token first'.isWord (hv _ List.mem_cons_self)
      exact ⟨r, hr, by simpa [chainWords] using hrefs⟩
    · obtain ⟨before, o, a, after, rfl, hsplit⟩ := split?_chainText first' hne
      have hhead : (chainText first' (before ++ (o, a) :: after)).head? ≠ some '~' := by
        intro h
        rw [chainText, List.head?_append_of_ne_nil _ first'.text_ne_nil] at h
        have := first'.isSoft_of_mem_text (List.mem_of_head? h)
        revert this
        decide
      have hform := form_of_split? hself
        (scannedAs_plain fun _ h => isPlain_of_mem_chainText h).group?_eq_none hhead hsplit
      rw [if_neg fun h => chainText_ne_nil _ _ h.1] at hform
      rw [chainWords_append] at hv ⊢
      rw [List.length_append, List.length_cons] at hlen
      obtain ⟨l, hl, hlrefs⟩ := ih before.length (by omega) first' before
        (fun t ht => hv t (List.mem_append_left _ ht)) rfl
      obtain ⟨r, hr, hrrefs⟩ := ih after.length (by omega) a after
        (fun t ht => hv t (List.mem_append_right _ ht)) rfl
      refine ⟨combine ⟨chainText first' before, o, chainText a after⟩ l r, ?_, fun n => ?_⟩
      · rw [eval_binary hform, hl, hr]
        rfl
      · rw [mem_references_combine, hlrefs, hrrefs]
        simp only [List.mem_append, or_and_right, exists_or]

end Evaluation

end Expr

end Dcpu
