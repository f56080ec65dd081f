import Dcpu.Proofs.Evaluation

/-! How the scans for a group and for an operator pass over words, operators and character
literals, and how a decimal numeral is read back. -/
namespace Dcpu

namespace Text

variable {t : Text} {c x : Char}

theorem trim_eq_self (first : ∀ c ∈ t.head?, isBlank c = false)
    (last : ∀ c ∈ t.getLast?, isBlank c = false) : trim t = t := by
  have hs : trimStart t = t := by
    cases t with
    | nil => rfl
    | cons c t => simp [trimStart, first c (by simp)]
  rw [trim, hs, trimEnd]
  cases hr : t.reverse with
  | nil =>
    rw [List.reverse_eq_nil_iff] at hr
    simp [hr]
  | cons c r =>
    have hl : t.getLast? = some c := by rw [← List.head?_reverse, hr]; rfl
    rw [List.dropWhile_cons_of_neg (by simp [last c hl]), ← hr, List.reverse_reverse]

theorem mem_head?_of_trimEnd (h : c ∈ (trimEnd t).head?) : c ∈ t.head? := by
  have hs : (trimEnd t).reverse <:+ t.reverse := by
    rw [trimEnd, List.reverse_reverse]
    exact List.dropWhile_suffix _
  obtain ⟨blanks, hb⟩ := List.reverse_suffix.mp hs
  rw [← hb]
  cases ht : trimEnd t with
  | nil =>
    rw [ht] at h
    cases h
  | cons x xs =>
    rw [ht] at h
    exact h

theorem trimEnd_cons (h : isBlank c = false) (t : Text) : trimEnd (c :: t) = c :: trimEnd t := by
  unfold trimEnd
  rw [List.reverse_cons, List.dropWhile_append]
  split
  next he =>
    rw [List.isEmpty_iff.mp he, List.dropWhile_cons_of_neg (by simp [h])]
    rfl
  next => rw [List.reverse_append, List.reverse_singleton, List.singleton_append]

theorem trim_cons (h : isBlank c = false) (t : Text) : trim (c :: t) = c :: trimEnd t := by
  rw [trim, trimStart, List.dropWhile_cons_of_neg (by simp [h]), trimEnd_cons h]

/-- Every character is outside of literals. -/
def freed (t : Text) : List Mark := t.map fun c => ⟨c, true⟩

/-- Every character belongs to a literal. -/
def quoted (t : Text) : List Mark := t.map fun c => ⟨c, false⟩

theorem freed_append (s t : Text) : freed (s ++ t) = freed s ++ freed t := List.map_append

@[simp] theorem unmarked_freed (t : Text) : unmarked (freed t) = t := by
  simp [unmarked, freed, Function.comp_def]

theorem marked_append_of_free {rest : Text} (h : ∀ c ∈ t, c ≠ '"' ∧ c ≠ '\'') :
    marked (t ++ rest) = freed t ++ marked rest := by
  induction t with
  | nil => rfl
  | cons c t ih =>
    obtain ⟨hs, hc⟩ := h c (by simp)
    have hn : Quote.outside.next c = .outside := by
      simp [Quote.next, Delimiter.mark, hs, hc]
    have hf : Quote.outside.isFree c = true := by
      simp [Quote.isFree, Delimiter.mark, hs, hc]
    have ht := ih fun c hc => h c (by simp [hc])
    rw [marked] at ht
    simp [marked, markedFrom, freed, hn, hf, ht]

theorem isUpper_iff : c.isUpper = true ↔ 65 ≤ c.toNat ∧ c.toNat ≤ 90 := decide_eq_true_iff

theorem isLower_iff : c.isLower = true ↔ 97 ≤ c.toNat ∧ c.toNat ≤ 122 :=
  Bool.and_eq_true_iff.trans (and_congr decide_eq_true_iff decide_eq_true_iff)

theorem isDigit_iff : c.isDigit = true ↔ 48 ≤ c.toNat ∧ c.toNat ≤ 57 :=
  Bool.and_eq_true_iff.trans (and_congr decide_eq_true_iff decide_eq_true_iff)

theorem isAlpha_iff : c.isAlpha = true ↔
    65 ≤ c.toNat ∧ c.toNat ≤ 90 ∨ 97 ≤ c.toNat ∧ c.toNat ≤ 122 :=
  Bool.or_eq_true_iff.trans (or_congr isUpper_iff isLower_iff)

/-- A character that words are made of: names and numbers. -/
def isWordChar (c : Char) : Bool := Expr.Group.isNameChar c || c == '.'

theorem ne_of_isWordChar (hc : isWordChar c = true) (hx : isWordChar x = false) : c ≠ x := by
  rintro rfl
  rw [hc] at hx
  cases hx

theorem isBlank_of_isWordChar (h : isWordChar c = true) : isBlank c = false := by
  have hb : 46 ≤ c.toNat ∧ c.toNat ≤ 122 := by
    simp only [isWordChar, Expr.Group.isNameChar, Char.isAlphanum, Bool.or_eq_true, isAlpha_iff,
      isDigit_iff, beq_iff_eq] at h
    rcases h with (((h | h) | h) | rfl) | rfl
    · omega
    · omega
    · omega
    · decide
    · decide
  rw [← Bool.not_eq_true]
  intro hbl
  simp [isBlank, blankRanges] at hbl
  omega

/-- What is no capital letter stays as it is, and a capital letter becomes a letter that is none. -/
theorem toLower_cases (c : Char) :
    c.isUpper = false ∧ c.toLower = c ∨
      c.isAlpha = true ∧ c.toLower.isUpper = false ∧ c.toLower.isAlpha = true := by
  unfold Char.toLower
  split
  next h =>
    have hb : 65 ≤ c.toNat ∧ c.toNat ≤ 90 := h
    have hs : (c.val + 32).toNat = c.toNat + 32 := by
      rw [UInt32.toNat_add]
      exact Nat.mod_eq_of_lt (show c.toNat + 32 < 2 ^ 32 by omega)
    have hlower : 97 ≤ (c.val + 32).toNat ∧ (c.val + 32).toNat ≤ 122 := by omega
    have hupper : ¬(65 ≤ (c.val + 32).toNat ∧ (c.val + 32).toNat ≤ 90) := by omega
    exact .inr ⟨isAlpha_iff.mpr (.inl hb), decide_eq_false hupper, isAlpha_iff.mpr (.inr hlower)⟩
  next h => exact .inl ⟨decide_eq_false h, rfl⟩

theorem isAlpha_toLower (c : Char) : c.toLower.isAlpha = c.isAlpha := by
  rcases toLower_cases c with ⟨-, h⟩ | ⟨ha, -, hl⟩
  · rw [h]
  · rw [ha, hl]

/-- Only letters have two cases. -/
theorem toLower_eq_iff {p : Char} (hp : p.isAlpha = false) : c.toLower = p ↔ c = p := by
  rcases toLower_cases c with ⟨-, h⟩ | ⟨ha, -, hl⟩
  · rw [h]
  · constructor
    · rintro rfl
      simp [hl] at hp
    · rintro rfl
      simp [ha] at hp

theorem toLower_beq {p : Char} (hp : p.isAlpha = false) : (c.toLower == p) = (c == p) := by
  rw [Bool.eq_iff_iff, beq_iff_eq, beq_iff_eq, toLower_eq_iff hp]

theorem isAlpha_of_isDigit (h : c.isDigit = true) : c.isAlpha = false := by
  rw [isDigit_iff] at h
  rw [← Bool.not_eq_true, isAlpha_iff]
  omega

theorem toLower_of_isDigit (h : c.isDigit = true) : c.toLower = c :=
  (toLower_eq_iff (isAlpha_of_isDigit h)).mpr rfl

theorem isUpper_toLower (c : Char) : c.toLower.isUpper = false := by
  rcases toLower_cases c with ⟨hu, h⟩ | ⟨-, hu, -⟩
  · rwa [h]
  · exact hu

theorem lower_lower (t : Text) : lower (lower t) = lower t := by
  refine (List.map_map ..).trans (List.map_congr_left fun c _ => ?_)
  exact dif_neg (of_decide_eq_false (isUpper_toLower c))

/-- Case does not matter for what a word is made of. -/
theorem isWordChar_toLower (c : Char) : isWordChar c.toLower = isWordChar c := by
  rcases toLower_cases c with ⟨-, h⟩ | ⟨ha, -, hl⟩
  · rw [h]
  · simp [isWordChar, Expr.Group.isNameChar, Char.isAlphanum, ha, hl]

theorem isWordChar_of_isDigit (h : c.isDigit = true) : isWordChar c = true := by
  simp [isWordChar, Expr.Group.isNameChar, Char.isAlphanum, h]

end Text

namespace Numeral

theorem digit?_of_isDigit {c : Char} (h : c.isDigit = true) :
    digit? 10 c = some (c.toNat - '0'.toNat) := by
  simp only [Char.isDigit, Bool.and_eq_true, decide_eq_true_eq] at h
  have hv : digitValue c = some (c.toNat - '0'.toNat) := if_pos h
  have hle : c.toNat ≤ 57 := UInt32.le_iff_toNat_le.mp h.2
  have hlt : c.toNat - 48 < 10 := by omega
  simp [digit?, hv, hlt]

theorem digits?_of_isDigit {t : Text} (hne : t ≠ []) (h : ∀ c ∈ t, c.isDigit = true) :
    digits? 10 t = some (Nat.ofDigitChars 10 t 0) := by
  have hf (n : Nat) : t.foldlM (fun n c => (digit? 10 c).map (n * 10 + ·)) n =
      some (Nat.ofDigitChars 10 t n) := by
    clear hne
    rw [Nat.ofDigitChars_eq_foldl]
    induction t generalizing n with
    | nil => rfl
    | cons c t ih =>
      rw [List.foldlM_cons, digit?_of_isDigit (h c (by simp))]
      simpa [Nat.mul_comm] using ih (fun c hc => h c (by simp [hc])) _
  rw [digits?, if_neg (by simpa using hne), hf]

theorem isWordChar_of_digit? {radix : Nat} {c : Char} (h : (digit? radix c).isSome = true) :
    Text.isWordChar c = true := by
  have hv : (digitValue c).isSome = true := by
    cases hd : digitValue c with
    | none => simp [digit?, hd] at h
    | some n => rfl
  unfold digitValue at hv
  simp only [Text.isWordChar, Expr.Group.isNameChar, Char.isAlphanum, Bool.or_eq_true,
    Text.isAlpha_iff, Text.isDigit_iff]
  split at hv
  next hc => exact .inl (.inl (.inr hc))
  next =>
    split at hv
    next hc => exact .inl (.inl (.inl (.inr hc)))
    next =>
      split at hv
      next hc => exact .inl (.inl (.inl (.inl hc)))
      next => cases hv

theorem isSome_digit?_of_digits? {radix : Nat} {t : Text} (h : (digits? radix t).isSome = true) :
    ∀ c ∈ t, (digit? radix c).isSome = true := by
  have hf (n : Nat) (hn : (t.foldlM (fun n c => (digit? radix c).map (n * radix + ·)) n).isSome = true) :
      ∀ c ∈ t, (digit? radix c).isSome = true := by
    clear h
    induction t generalizing n with
    | nil => simp
    | cons c t ih =>
      rw [List.foldlM_cons] at hn
      cases hd : digit? radix c with
      | none => simp [hd] at hn
      | some m =>
        rw [hd] at hn
        exact List.forall_mem_cons.mpr ⟨by rw [hd]; rfl, ih _ hn⟩
  unfold digits? at h
  split at h
  · cases h
  · exact hf 0 h

theorem isWordChar_of_mem_radixOf {t : Text} {c : Char} (hc : c ∈ t)
    (h : ∀ c ∈ (radixOf t).2, Text.isWordChar c = true) : Text.isWordChar c = true := by
  unfold radixOf at h
  split at h
  all_goals
    first
    | exact h c hc
    | rw [List.mem_cons, List.mem_cons] at hc
      rcases hc with rfl | rfl | hc
      · decide
      · decide
      · exact h c hc

/-- A number literal is a word. -/
theorem isWordChar_of_number? {t : Text} (h : (number? t).isSome = true) :
    ∀ c ∈ t, Text.isWordChar c = true := by
  intro c hc
  rw [← Text.isWordChar_toLower]
  by_cases hu : c.toLower = '_'
  · rw [hu]
    rfl
  · have hm : c.toLower ∈ (Text.lower t).filter (· ≠ '_') :=
      List.mem_filter.mpr ⟨List.mem_map.mpr ⟨c, hc, rfl⟩, by simpa using hu⟩
    have hd : (digits? (radixOf ((Text.lower t).filter (· ≠ '_'))).1
        (radixOf ((Text.lower t).filter (· ≠ '_'))).2).isSome = true := by
      rw [number?] at h
      exact Option.isSome_of_isSome_bind h
    exact isWordChar_of_mem_radixOf hm fun x hx =>
      isWordChar_of_digit? (isSome_digit?_of_digits? hd x hx)

theorem decimal_ne_nil (n : Nat) : decimal n ≠ [] := Nat.toDigits_ne_nil

theorem lower_of_isDigit {t : Text} (h : ∀ c ∈ t, c.isDigit = true) : Text.lower t = t :=
  (List.map_congr_left fun c hc => Text.toLower_of_isDigit (h c hc)).trans (List.map_id t)

theorem radixOf_of_isDigit {t : Text} (h : ∀ c ∈ t, c.isDigit = true) : radixOf t = (10, t) := by
  unfold radixOf
  split
  · exact absurd (h 'x' (by simp)) (by decide)
  · exact absurd (h 'b' (by simp)) (by decide)
  · exact absurd (h 'o' (by simp)) (by decide)
  · exact absurd (h 'd' (by simp)) (by decide)
  · rfl

/-- A word in decimal is read back. -/
theorem number?_decimal (w : Word) : number? (decimal w.toNat) = some w := by
  have hd (c : Char) (hc : c ∈ decimal w.toNat) : c.isDigit = true := isDigit_of_mem_decimal hc
  have hu : (decimal w.toNat).filter (· ≠ '_') = decimal w.toNat := by
    refine List.filter_eq_self.mpr fun c hc => ?_
    have : c ≠ '_' := by
      rintro rfl
      exact absurd (hd _ hc) (by decide)
    simpa using this
  have hv : Nat.ofDigitChars 10 (decimal w.toNat) 0 = w.toNat :=
    Nat.ofDigitChars_toDigits (by decide) (by decide)
  unfold number?
  rw [lower_of_isDigit hd, hu, radixOf_of_isDigit hd]
  dsimp only
  rw [digits?_of_isDigit (decimal_ne_nil _) hd, hv, Option.bind_some, Word.ofNat?,
    if_pos (show w.toNat < Word.count from w.toNat_lt), UInt16.ofNat_toNat]

theorem decimal_inj {v w : Word} : decimal v.toNat = decimal w.toNat ↔ v = w := by
  constructor
  · intro h
    have := number?_decimal v
    rw [h, number?_decimal w] at this
    exact (Option.some.inj this).symm
  · rintro rfl
    rfl

end Numeral

namespace Expr

open Text (isWordChar freed quoted)

/-- A character that opens and closes no group. -/
def Inert (m : Mark) : Prop := ∀ x ∈ ['(', ')', '{', '}'], m.isOpenly x = false

theorem inert_quoted (c : Char) : Inert ⟨c, false⟩ := fun _ _ => rfl

theorem inert_of_isWordChar {c : Char} (h : isWordChar c = true) (free : Bool) : Inert ⟨c, free⟩ := by
  intro x hx
  have hx' : isWordChar x = false := by
    have hall : ['(', ')', '{', '}'].all (fun x => !isWordChar x) = true := by decide
    simpa using List.all_eq_true.mp hall x hx
  simp [Mark.isOpenly, Text.ne_of_isWordChar h hx']

theorem bracesAfter_of_inert {m : Mark} (h : Inert m) (braces : Nat) :
    bracesAfter braces m = braces := by
  simp [bracesAfter, h '{' (by simp), h '}' (by simp)]

theorem closeGroup_append_of_inert {ms rest : List Mark} (h : ∀ m ∈ ms, Inert m) (depth : Nat) :
    closeGroup depth 0 (ms ++ rest) =
      (closeGroup depth 0 rest).map fun f => (Text.unmarked ms ++ f.1, f.2) := by
  induction ms with
  | nil => simp [Text.unmarked]
  | cons m ms ih =>
    have hm := h m (by simp)
    rw [List.cons_append, closeGroup.eq_def]
    simp only [hm ')' (by simp), hm '(' (by simp), Bool.false_and, Bool.false_eq_true, if_false,
      bracesAfter_of_inert hm, ih fun m hm => h m (by simp [hm])]
    simp [Text.unmarked, Function.comp_def]

theorem openGroup_append_of_inert {ms rest : List Mark} (h : ∀ m ∈ ms, Inert m) :
    openGroup 0 (ms ++ rest) =
      (openGroup 0 rest).map fun f => (Text.unmarked ms ++ f.1, f.2) := by
  induction ms with
  | nil => simp [Text.unmarked]
  | cons m ms ih =>
    have hm := h m (by simp)
    rw [List.cons_append, openGroup]
    simp only [hm '(' (by simp), Bool.false_and, Bool.false_eq_true, if_false,
      bracesAfter_of_inert hm, ih fun m hm => h m (by simp [hm])]
    simp [Text.unmarked, Function.comp_def]

/-- Wherever the text stands outside of literals, its characters get these marks, a literal that it
opens is closed again, and no group is opened or closed. -/
structure ScannedAs (t : Text) (ms : List Mark) : Prop where
  marked (rest : Text) : Text.marked (t ++ rest) = ms ++ Text.marked rest
  inert : ∀ m ∈ ms, Inert m

theorem ScannedAs.marked_self {t : Text} {ms : List Mark} (h : ScannedAs t ms) :
    Text.marked t = ms := by
  have := h.marked []
  rwa [List.append_nil, show Text.marked [] = [] from rfl, List.append_nil] at this

theorem ScannedAs.unmarked {t : Text} {ms : List Mark} (h : ScannedAs t ms) :
    Text.unmarked ms = t := by
  rw [← h.marked_self, Text.unmarked_marked]

theorem ScannedAs.append {t u : Text} {ms ns : List Mark} (ht : ScannedAs t ms)
    (hu : ScannedAs u ns) : ScannedAs (t ++ u) (ms ++ ns) where
  marked rest := by rw [List.append_assoc, ht.marked, hu.marked, List.append_assoc]
  inert m hm := (List.mem_append.mp hm).elim (ht.inert m) (hu.inert m)

theorem scannedAs_word {t : Text} (h : ∀ c ∈ t, isWordChar c = true) : ScannedAs t (freed t) where
  marked rest := Text.marked_append_of_free fun c hc =>
    ⟨Text.ne_of_isWordChar (h c hc) (by decide), Text.ne_of_isWordChar (h c hc) (by decide)⟩
  inert m hm := by
    obtain ⟨c, hc, rfl⟩ := List.mem_map.mp hm
    exact inert_of_isWordChar (h c hc) true

/-- Symbols of operators have no characters of words, and none that the scans look for. -/
theorem of_mem_symbol {op : Operator} {c : Char} (h : c ∈ op.symbol) : isWordChar c = false ∧
    (c ≠ '"' ∧ c ≠ '\'') ∧ c ≠ '$' ∧ c ≠ '{' ∧ c ≠ '}' := by
  have hall : op.symbol.all (fun c => !isWordChar c && (c != '"' && c != '\'') &&
      (c != '$' && (c != '{' && c != '}'))) = true := by
    cases op <;> decide
  simpa only [Bool.and_eq_true, Bool.not_eq_true', bne_iff_ne, and_assoc] using
    List.all_eq_true.mp hall c h

theorem scannedAs_symbol (op : Operator) : ScannedAs op.symbol (freed op.symbol) where
  marked rest := Text.marked_append_of_free fun _ hc => (of_mem_symbol hc).2.1
  inert := by cases op <;> simp [Inert, freed, Operator.symbol, Mark.isOpenly]

/-- A text in which every group that is opened is closed: the search for the end of a group passes
over it. -/
def Balanced (t : Text) : Prop :=
  ∀ depth rest, closeGroup depth 0 (Text.marked (t ++ rest)) =
    (closeGroup depth 0 (Text.marked rest)).map fun f => (t ++ f.1, f.2)

theorem ScannedAs.balanced {t : Text} {ms : List Mark} (h : ScannedAs t ms) : Balanced t := by
  intro depth rest
  rw [h.marked, closeGroup_append_of_inert h.inert, h.unmarked]

theorem Balanced.append {t u : Text} (ht : Balanced t) (hu : Balanced u) : Balanced (t ++ u) := by
  intro depth rest
  rw [List.append_assoc, ht, hu, Option.map_map]
  simp [Function.comp_def]

theorem marked_open (rest : Text) : Text.marked ('(' :: rest) = ⟨'(', true⟩ :: Text.marked rest := rfl

theorem marked_close (rest : Text) : Text.marked (')' :: rest) = ⟨')', true⟩ :: Text.marked rest :=
  rfl

theorem Balanced.group {t : Text} (h : Balanced t) : Balanced ('(' :: (t ++ [')'])) := by
  intro depth rest
  have hin : closeGroup (depth + 1) 0 (Text.marked (t ++ ')' :: rest)) =
      (closeGroup depth 0 (Text.marked rest)).map fun f => (t ++ ')' :: f.1, f.2) := by
    rw [h, marked_close, closeGroup]
    simp [Mark.isOpenly, Function.comp_def]
  rw [List.cons_append, List.append_assoc, List.singleton_append, marked_open, closeGroup.eq_def]
  dsimp only
  rw [hin]
  simp [Mark.isOpenly, Function.comp_def]

/-- The first group of a text that starts without one. -/
theorem ScannedAs.group? {t u rest : Text} {ms : List Mark} (ht : ScannedAs t ms) (hu : Balanced u) :
    group? (t ++ '(' :: (u ++ ')' :: rest)) = some ⟨t, u, rest⟩ := by
  have ho : openGroup 0 (Text.marked (t ++ '(' :: (u ++ ')' :: rest))) =
      some (t, Text.marked (u ++ ')' :: rest)) := by
    rw [ht.marked, openGroup_append_of_inert ht.inert, ht.unmarked, marked_open, openGroup]
    simp [Mark.isOpenly]
  have hc : closeGroup 0 0 (Text.marked (u ++ ')' :: rest)) = some (u, rest) := by
    rw [hu, marked_close, closeGroup]
    simp [Mark.isOpenly]
  simp [Expr.group?, ho, hc]

theorem ScannedAs.group?_eq_none {t : Text} {ms : List Mark} (h : ScannedAs t ms) :
    Expr.group? t = none := by
  have ho : openGroup 0 (Text.marked t) = none := by
    rw [h.marked_self, ← List.append_nil ms, openGroup_append_of_inert h.inert]
    rfl
  simp [Expr.group?, ho]

section Split

theorem sitesFrom_freed {t : Text} (h : ∀ c ∈ t, c ≠ '$' ∧ c ≠ '{' ∧ c ≠ '}') :
    sitesFrom 0 0 (freed t) = freed t := by
  induction t with
  | nil => rfl
  | cons c t ih =>
    obtain ⟨h1, h2, h3⟩ := h c (by simp)
    have ht := ih fun c hc => h c (by simp [hc])
    rw [freed] at ht
    simp [freed, sitesFrom, Mark.isOpenly, bracesAfter, h1, h2, h3, ht]

theorem sitesFrom_quoted (t : Text) : sitesFrom 0 0 (quoted t) = quoted t := by
  induction t with
  | nil => rfl
  | cons c t ih =>
    rw [quoted] at ih
    simp [quoted, sitesFrom, Mark.isOpenly, bracesAfter, ih]

theorem siteOf?_quoted (symbol t : Text) : siteOf? symbol (quoted t) = none := by
  induction t with
  | nil => rfl
  | cons c t ih =>
    rw [quoted] at ih
    simp [quoted, siteOf?, ih]

theorem split?_eq_none {e : Text} (h : ∀ op : Operator, siteOf? op.symbol (sites e) = none) :
    split? e = none := by
  have hf (ops : List Operator) : ops.foldl (betterSplit (sites e)) none = none := by
    induction ops with
    | nil => rfl
    | cons op ops ih => simpa [betterSplit, h op] using ih
  simp [split?, hf]

/-- A symbol is not found across the start of a word. -/
theorem startsWith_append_word {symbol t w : Text} (hs : ∀ c ∈ symbol, isWordChar c = false)
    (hw : ∀ c ∈ w, isWordChar c = true) :
    startsWith symbol (freed (t ++ w)) = startsWith symbol (freed t) := by
  induction symbol generalizing t with
  | nil => rfl
  | cons x symbol ih =>
    cases t with
    | cons c t =>
      have ht := ih (t := t) fun c hc => hs c (by simp [hc])
      rw [freed, freed] at ht
      simp [freed, startsWith] at ht ⊢
      rw [ht]
    | nil =>
      cases w with
      | nil => rfl
      | cons c w =>
        have hne : x ≠ c := (Text.ne_of_isWordChar (hw c (by simp)) (hs x (by simp))).symm
        simp [freed, startsWith, hne]

theorem siteOf?_append_word {symbol t w : Text} (hne : symbol ≠ [])
    (hs : ∀ c ∈ symbol, isWordChar c = false) (hw : ∀ c ∈ w, isWordChar c = true) :
    siteOf? symbol (freed (t ++ w)) = siteOf? symbol (freed t) := by
  induction t with
  | nil =>
    induction w with
    | nil => rfl
    | cons c w ih =>
      have hc := startsWith_append_word (t := []) (w := c :: w) hs hw
      have hn : startsWith symbol (freed []) = false := by
        cases symbol with
        | nil => exact absurd rfl hne
        | cons => rfl
      have hrest := ih fun c hc => hw c (by simp [hc])
      rw [List.nil_append] at hc hrest ⊢
      rw [hn] at hc
      simp only [freed, List.map_cons] at hc hrest ⊢
      simp [siteOf?, hc, hrest]
  | cons c t ih =>
    have hc := startsWith_append_word (t := c :: t) (w := w) hs hw
    simp only [freed, List.map_cons, List.cons_append] at hc ih ⊢
    rw [siteOf?, siteOf?, hc, ih]

theorem siteOf?_word_append {symbol t w : Text} (hne : symbol ≠ [])
    (hs : ∀ c ∈ symbol, isWordChar c = false) (hw : ∀ c ∈ w, isWordChar c = true) :
    siteOf? symbol (freed (w ++ t)) = (siteOf? symbol (freed t)).map (· + w.length) := by
  induction w with
  | nil => simp
  | cons c w ih =>
    have hc : startsWith symbol (freed (c :: (w ++ t))) = false := by
      cases symbol with
      | nil => exact absurd rfl hne
      | cons x symbol =>
        have hx : x ≠ c := (Text.ne_of_isWordChar (hw c (by simp)) (hs x (by simp))).symm
        simp [freed, startsWith, hx]
    have hrest := ih fun c hc => hw c (by simp [hc])
    simp only [freed, List.map_cons, List.cons_append] at hc hrest ⊢
    rw [siteOf?, hc, hrest, Option.map_map]
    simp [Function.comp_def, Nat.add_assoc]

/-- The search for the best split comes to the same choice when all sites lie `n` further. -/
theorem foldl_betterSplit_shift {ms ns : List Mark} {n : Nat}
    (h : ∀ op : Operator, siteOf? op.symbol ms = (siteOf? op.symbol ns).map (· + n))
    (ops : List Operator) (best : Option (Nat × Operator)) :
    ops.foldl (betterSplit ms) (best.map fun (i, op) => (i + n, op)) =
      (ops.foldl (betterSplit ns) best).map fun (i, op) => (i + n, op) := by
  induction ops generalizing best with
  | nil => rfl
  | cons op ops ih =>
    rw [List.foldl_cons, List.foldl_cons, ← ih]
    congr 1
    unfold betterSplit
    rw [h op]
    cases siteOf? op.symbol ns with
    | none => rfl
    | some i =>
      cases best with
      | none => rfl
      | some b =>
        obtain ⟨start, chosen⟩ := b
        simp only [Option.map_some, Nat.add_lt_add_iff_right]
        split <;> rfl

theorem scannedAs_symbols {t : Text} (h : ∀ c ∈ t, ∃ o : Operator, c ∈ o.symbol) :
    ScannedAs t (freed t) where
  marked rest := Text.marked_append_of_free fun c hc => by
    obtain ⟨o, ho⟩ := h c hc
    exact (of_mem_symbol ho).2.1
  inert m hm := by
    obtain ⟨c, hc, rfl⟩ := List.mem_map.mp hm
    obtain ⟨o, ho⟩ := h c hc
    exact (scannedAs_symbol o).inert _ (List.mem_map_of_mem ho)

/-- Characters of operators between two words are split as they are alone. -/
theorem split?_between {x y l r : Text} {op : Operator}
    (hm : ∀ c ∈ x ++ op.symbol ++ y, ∃ o : Operator, c ∈ o.symbol)
    (hbest : Operator.all.foldl (betterSplit (freed (x ++ op.symbol ++ y))) none =
      some (x.length, op))
    (hl : ∀ c ∈ l, isWordChar c = true) (hr : ∀ c ∈ r, isWordChar c = true) :
    split? (l ++ (x ++ op.symbol ++ y) ++ r) = some ⟨l ++ x, op, y ++ r⟩ := by
  have hsites : sites (l ++ (x ++ op.symbol ++ y) ++ r) =
      freed (l ++ (x ++ op.symbol ++ y) ++ r) := by
    rw [sites, (((scannedAs_word hl).append (scannedAs_symbols hm)).append
      (scannedAs_word hr)).marked_self, ← Text.freed_append, ← Text.freed_append]
    refine sitesFrom_freed fun c hc => ?_
    rw [List.mem_append, List.mem_append] at hc
    have hw {c : Char} (h : isWordChar c = true) : c ≠ '$' ∧ c ≠ '{' ∧ c ≠ '}' :=
      ⟨Text.ne_of_isWordChar h (by decide), Text.ne_of_isWordChar h (by decide),
        Text.ne_of_isWordChar h (by decide)⟩
    rcases hc with (hc | hc) | hc
    · exact hw (hl c hc)
    · obtain ⟨o, ho⟩ := hm c hc
      exact (of_mem_symbol ho).2.2
    · exact hw (hr c hc)
  have hshift (o : Operator) : siteOf? o.symbol (freed (l ++ (x ++ op.symbol ++ y) ++ r)) =
      (siteOf? o.symbol (freed (x ++ op.symbol ++ y))).map (· + l.length) := by
    have hne : o.symbol ≠ [] := List.ne_nil_of_length_pos o.length_symbol_pos
    have ho : ∀ c ∈ o.symbol, isWordChar c = false := fun c hc => (of_mem_symbol hc).1
    rw [siteOf?_append_word hne ho hr, siteOf?_word_append hne ho hl]
  have hfold := foldl_betterSplit_shift hshift Operator.all none
  rw [hbest, Option.map_none, Option.map_some] at hfold
  dsimp only at hfold
  have htext : l ++ (x ++ op.symbol ++ y) ++ r = (l ++ x) ++ (op.symbol ++ (y ++ r)) := by
    simp only [List.append_assoc]
  have hlen : x.length + l.length = (l ++ x).length := by
    rw [List.length_append, Nat.add_comm]
  rw [split?, hsites, hfold, Option.map_some]
  dsimp only
  rw [htext, hlen, List.take_left, ← List.drop_drop, List.drop_left, List.drop_left]

/-- Alone between two words, the symbol of an operator is taken whole: none of the shorter symbols
in it wins. -/
theorem split?_symbol (op : Operator) {l r : Text} (hl : ∀ c ∈ l, isWordChar c = true)
    (hr : ∀ c ∈ r, isWordChar c = true) : split? (l ++ op.symbol ++ r) = some ⟨l, op, r⟩ := by
  have hself : Operator.all.foldl (betterSplit (freed ([] ++ op.symbol ++ []))) none =
      some (0, op) := by
    cases op <;> decide
  have h := split?_between (x := []) (y := []) (fun c hc => ⟨op, by simpa using hc⟩) hself hl hr
  simpa using h

/-- A word is not split. -/
theorem split?_word {w : Text} (hw : ∀ c ∈ w, isWordChar c = true) : split? w = none := by
  have hsites : sites w = freed w := by
    rw [sites, (scannedAs_word hw).marked_self]
    refine sitesFrom_freed fun c hc => ⟨?_, ?_, ?_⟩ <;>
      exact Text.ne_of_isWordChar (hw c hc) (by decide)
  refine split?_eq_none fun op => ?_
  have hne : op.symbol ≠ [] := List.ne_nil_of_length_pos op.length_symbol_pos
  have h := siteOf?_append_word (t := []) hne (fun c hc => (of_mem_symbol hc).1) hw
  rw [hsites]
  rwa [List.nil_append] at h

end Split

section Forms

variable {t u : Text} {ms : List Mark}

theorem form_token (hb : Text.trim t = t) (hg : group? t = none) (hne : t ≠ [])
    (hc : t.head? ≠ some '~') (hs : split? t = none) : form t = .token t := by
  unfold form formOfTrimmed
  rw [hb, hg]
  dsimp only
  split
  · exact absurd rfl hne
  · exact absurd rfl hc
  · rw [hs]

theorem form_word (hne : t ≠ []) (hw : ∀ c ∈ t, isWordChar c = true) : form t = .token t := by
  refine form_token ?_ (scannedAs_word hw).group?_eq_none hne ?_ (split?_word hw)
  · refine Text.trim_eq_self (fun c hc => ?_) fun c hc => ?_
    · exact Text.isBlank_of_isWordChar (hw c (List.mem_of_head? hc))
    · exact Text.isBlank_of_isWordChar (hw c (List.mem_of_getLast? hc))
  · intro hc
    have := hw '~' (List.mem_of_head? hc)
    revert this
    decide

theorem form_group {rest : Text} (hb : Text.trim (t ++ '(' :: (u ++ ')' :: rest)) =
    t ++ '(' :: (u ++ ')' :: rest)) (ht : ScannedAs t ms) (hu : Balanced u) :
    form (t ++ '(' :: (u ++ ')' :: rest)) = .group ⟨t, u, rest⟩ := by
  unfold form formOfTrimmed
  rw [hb, ht.group? hu]

theorem form_complement (hne : t ≠ []) (hw : ∀ c ∈ t, isWordChar c = true) :
    form ('~' :: t) = .complement t := by
  have hb : Text.trim ('~' :: t) = '~' :: t := by
    refine Text.trim_eq_self (by simp; decide) fun c hc => ?_
    rw [List.getLast?_cons_of_ne_nil hne] at hc
    exact Text.isBlank_of_isWordChar (hw c (List.mem_of_getLast? hc))
  have hs : ScannedAs ['~'] (freed ['~']) :=
    ⟨fun rest => rfl, by simp [freed, Inert, Mark.isOpenly]⟩
  unfold form formOfTrimmed
  rw [hb, ← List.singleton_append, (hs.append (scannedAs_word hw)).group?_eq_none]
  rfl

end Forms

end Expr

end Dcpu
