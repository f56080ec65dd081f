import Dcpu.Proofs.Scanning
import Mathlib.Data.List.Forall2
import Mathlib.Data.Nat.Digits.Defs
import Mathlib.Tactic.Ring

/-! Number literals. What counts as one is said by a table of digits and a table of radices; the
reader accepts exactly these texts, up to the case of letters and underscores, and gives their
positional value. -/
namespace Dcpu.Numeral

/-- The digits of all radices, by their values. -/
def digitChars : Text := "0123456789abcdef".toList

/-- The radices that can be announced and the letters that announce them after a zero. -/
def radices : List (Char × Nat) := [('x', 16), ('b', 2), ('o', 8), ('d', 10)]

/-- The character is the digit of the radix that has the value. -/
def IsDigit (radix : Nat) (c : Char) (value : Nat) : Prop :=
  value < radix ∧ digitChars[value]? = some c

/-- At least one digit of the radix, the most significant one first. -/
def Denotes (radix : Nat) (t : Text) (n : Nat) : Prop :=
  t ≠ [] ∧ ∃ values, List.Forall₂ (IsDigit radix) t values ∧ Nat.ofDigits radix values.reverse = n

/-- A number in lower case without underscores. What starts like an announcement is never read as
plain decimal. -/
inductive Spells : Text → Nat → Prop where
  | announced {letter : Char} {radix n : Nat} {t : Text} (hr : (letter, radix) ∈ radices)
      (h : Denotes radix t n) : Spells ('0' :: letter :: t) n
  | plain {t : Text} {n : Nat} (hp : ∀ row ∈ radices, ¬ ['0', row.1] <+: t) (h : Denotes 10 t n) :
      Spells t n

/-- The text in lower case without underscores. -/
def bare (t : Text) : Text := Text.lower (t.filter (· ≠ '_'))

theorem radix_le {row : Char × Nat} (h : row ∈ radices) : row.2 ≤ 16 := by
  revert row
  decide

section Digits

variable {radix n : Nat} {c : Char} {t : Text}

theorem digitValue_of_mem {value : Nat} (h : digitChars[value]? = some c) :
    digitValue c = some value := by
  have htable : ∀ value < 16, digitChars[value]?.bind digitValue = some value := by decide
  obtain ⟨hlt, -⟩ := List.getElem?_eq_some_iff.mp h
  simpa [h] using htable value hlt

/-- The codes of the digits below ten and of the letters follow each other. -/
theorem digitChars_of_lt {value : Nat} (h : value < 16) :
    digitChars[value]? = some (Char.ofNat (if value < 10 then 48 + value else 87 + value)) := by
  revert value
  decide

theorem toNat_of_digitValue {value : Nat} (hc : c.isUpper = false) (h : digitValue c = some value) :
    c.toNat = if value < 10 then 48 + value else 87 + value := by
  unfold digitValue at h
  split at h
  next hd =>
    have h1 : 48 ≤ c.toNat := UInt32.le_iff_toNat_le.mp hd.1
    have h2 : c.toNat ≤ 57 := UInt32.le_iff_toNat_le.mp hd.2
    have hv : c.toNat - 48 = value := Option.some.inj h
    rw [if_pos (by omega)]
    omega
  next =>
    split at h
    next hl =>
      have h1 : 97 ≤ c.toNat := UInt32.le_iff_toNat_le.mp hl.1
      have hv : c.toNat - 97 + 10 = value := Option.some.inj h
      rw [if_neg (by omega)]
      omega
    next =>
      split at h
      next hu =>
        rw [Text.isUpper_iff.mpr hu] at hc
        cases hc
      next => cases h

/-- Digits in lower case are those of the table. -/
theorem digit?_eq_some_iff (hr : radix ≤ 16) (hc : c.isUpper = false) {value : Nat} :
    digit? radix c = some value ↔ IsDigit radix c value := by
  rw [digit?, Option.filter_eq_some_iff, decide_eq_true_eq]
  constructor
  · rintro ⟨hv, hlt⟩
    refine ⟨hlt, ?_⟩
    rw [digitChars_of_lt (by omega), ← toNat_of_digitValue hc hv, Char.ofNat_toNat]
  · rintro ⟨hlt, hv⟩
    exact ⟨digitValue_of_mem hv, hlt⟩

/-- What comes before the digits counts as often as they have places. -/
theorem foldlM_digit?_eq_some_iff {m : Nat} :
    t.foldlM (fun n c => (digit? radix c).map (n * radix + ·)) m = some n ↔
      ∃ values, List.Forall₂ (fun c value => digit? radix c = some value) t values ∧
        Nat.ofDigits radix values.reverse + radix ^ t.length * m = n := by
  induction t generalizing m with
  | nil => simp
  | cons c t ih =>
    rw [List.foldlM_cons, Option.bind_eq_bind, Option.bind_eq_some_iff]
    simp only [Option.map_eq_some_iff, List.forall₂_cons_left_iff, ih]
    have hstep (value : Nat) {values : List Nat} (hl : t.length = values.length) :
        Nat.ofDigits radix (value :: values).reverse + radix ^ (c :: t).length * m =
          Nat.ofDigits radix values.reverse + radix ^ t.length * (m * radix + value) := by
      rw [List.reverse_cons, Nat.ofDigits_append, Nat.ofDigits_singleton, List.length_reverse,
        List.length_cons, ← hl, pow_succ]
      ring
    constructor
    · rintro ⟨_, ⟨value, hv, rfl⟩, values, hvs, rfl⟩
      exact ⟨value :: values, ⟨value, values, hv, hvs, rfl⟩, hstep value hvs.length_eq⟩
    · rintro ⟨_, ⟨value, values, hv, hvs, rfl⟩, rfl⟩
      exact ⟨_, ⟨value, hv, rfl⟩, values, hvs, (hstep value hvs.length_eq).symm⟩

theorem digits?_eq_some_iff (hr : radix ≤ 16) (ht : ∀ c ∈ t, c.isUpper = false) :
    digits? radix t = some n ↔ Denotes radix t n := by
  have hdigits (values : List Nat) :
      List.Forall₂ (fun c value => digit? radix c = some value) t values ↔
        List.Forall₂ (IsDigit radix) t values := by
    induction t generalizing values with
    | nil => simp
    | cons c t ih =>
      have hc := List.forall_mem_cons.mp ht
      simp only [List.forall₂_cons_left_iff, digit?_eq_some_iff hr hc.1, ih hc.2]
  unfold digits? Denotes
  by_cases hne : t = []
  · simp [hne]
  · rw [if_neg (by simpa using hne), foldlM_digit?_eq_some_iff]
    simp [hne, hdigits]

end Digits

/-- A radix is announced, or the text does not start like that. -/
theorem radixOf_cases (t : Text) :
    (∃ row ∈ radices, ∃ ds, t = '0' :: row.1 :: ds ∧ radixOf t = (row.2, ds)) ∨
      (∀ row ∈ radices, ¬ ['0', row.1] <+: t) ∧ radixOf t = (10, t) := by
  unfold radixOf
  split
  next ds => exact .inl ⟨('x', 16), by decide, ds, rfl, rfl⟩
  next ds => exact .inl ⟨('b', 2), by decide, ds, rfl, rfl⟩
  next ds => exact .inl ⟨('o', 8), by decide, ds, rfl, rfl⟩
  next ds => exact .inl ⟨('d', 10), by decide, ds, rfl, rfl⟩
  next hx hb ho hd =>
    refine .inr ⟨fun row hrow hp => ?_, rfl⟩
    obtain ⟨ds, rfl⟩ := hp
    simp only [radices, List.mem_cons, List.not_mem_nil, or_false] at hrow
    rcases hrow with rfl | rfl | rfl | rfl
    · exact hx ds rfl
    · exact hb ds rfl
    · exact ho ds rfl
    · exact hd ds rfl

theorem digits?_radixOf_eq_some_iff {t : Text} {n : Nat} (ht : ∀ c ∈ t, c.isUpper = false) :
    digits? (radixOf t).1 (radixOf t).2 = some n ↔ Spells t n := by
  rcases radixOf_cases t with ⟨row, hrow, ds, rfl, hr⟩ | ⟨hp, hr⟩
  · have hds : ∀ c ∈ ds, c.isUpper = false := fun c hc => ht c (by simp [hc])
    rw [hr, digits?_eq_some_iff (radix_le hrow) hds]
    constructor
    · exact .announced hrow
    · intro h
      -- The letter stands for one radix only, and the text is no plain number.
      generalize hu : '0' :: row.1 :: ds = u at h
      cases h with
      | announced hr' h =>
        obtain ⟨-, hu⟩ := List.cons.inj hu
        obtain ⟨rfl, rfl⟩ := List.cons.inj hu
        have huniq : ∀ r ∈ radices, ∀ s ∈ radices, r.1 = s.1 → r.2 = s.2 := by decide
        rw [huniq row hrow _ hr' rfl]
        exact h
      | plain hp => exact absurd ⟨ds, hu⟩ (hp row hrow)
  · rw [hr]
    dsimp only
    rw [digits?_eq_some_iff (by decide) ht]
    constructor
    · exact .plain hp
    · intro h
      cases h with
      | announced hr' => exact absurd ⟨_, rfl⟩ (hp _ hr')
      | plain _ h => exact h

theorem filter_lower (t : Text) : (Text.lower t).filter (· ≠ '_') = bare t := by
  have hunderscore (c : Char) : c.toLower = '_' ↔ c = '_' := Text.toLower_eq_iff (by decide)
  unfold bare Text.lower
  rw [List.filter_map]
  congr 1
  refine List.filter_congr fun c _ => ?_
  simp [hunderscore]

theorem isUpper_of_mem_lower {t : Text} {c : Char} (h : c ∈ Text.lower t) : c.isUpper = false := by
  obtain ⟨x, -, rfl⟩ := List.mem_map.mp h
  exact Text.isUpper_toLower x

theorem ofNat?_eq_some_iff {n : Nat} {w : Word} : Word.ofNat? n = some w ↔ w.toNat = n := by
  unfold Word.ofNat?
  split
  next h =>
    rw [Option.some_inj]
    constructor
    · rintro rfl
      exact UInt16.toNat_ofNat_of_lt h
    · rintro rfl
      exact UInt16.ofNat_toNat
  next h =>
    refine ⟨fun hn => (by cases hn), ?_⟩
    rintro rfl
    exact absurd w.toNat_lt h

/-- A text is a number literal exactly if it spells a number of at most sixteen bits. Neither the
case of its letters nor its underscores matter. -/
theorem number?_eq_some_iff (t : Text) :
    (∀ n, (number? t).map UInt16.toNat = some n ↔ Spells (bare t) n ∧ n ≤ 65535) ∧
      ∀ u, bare u = bare t → number? u = number? t := by
  have hread (u : Text) : number? u =
      (digits? (radixOf (bare u)).1 (radixOf (bare u)).2).bind Word.ofNat? := by
    rw [number?, filter_lower]
  refine ⟨fun n => ?_, fun u hu => by rw [hread, hread, hu]⟩
  have hupper : ∀ c ∈ bare t, c.isUpper = false := fun _ => isUpper_of_mem_lower
  rw [hread, Option.map_bind, Option.bind_eq_some_iff]
  simp only [digits?_radixOf_eq_some_iff hupper, Function.comp_apply, Option.map_eq_some_iff,
    ofNat?_eq_some_iff]
  constructor
  · rintro ⟨m, hm, w, rfl, rfl⟩
    exact ⟨hm, Nat.le_of_lt_succ w.toNat_lt⟩
  · rintro ⟨hn, hle⟩
    exact ⟨n, hn, UInt16.ofNat n, UInt16.toNat_ofNat_of_lt (Nat.lt_succ_of_le hle),
      UInt16.toNat_ofNat_of_lt (Nat.lt_succ_of_le hle)⟩

/-- An underscore may separate the zero from the letter. -/
theorem number?_eq_some_iff_sample :
    (number? "0_X_0fF".toList).map UInt16.toNat = some 255 ∧
      number? "0_X_0fF".toList = number? "0x0ff_".toList := by
  have hbare : bare "0_X_0fF".toList = '0' :: 'x' :: ['0', 'f', 'f'] := by decide
  have hdigits : Denotes 16 ['0', 'f', 'f'] 255 := by
    refine ⟨List.cons_ne_nil _ _, [0, 15, 15], ?_, rfl⟩
    exact .cons ⟨by decide, rfl⟩ (.cons ⟨by decide, rfl⟩ (.cons ⟨by decide, rfl⟩ .nil))
  obtain ⟨hvalue, -⟩ := number?_eq_some_iff "0_X_0fF".toList
  obtain ⟨-, hsame⟩ := number?_eq_some_iff "0x0ff_".toList
  refine ⟨(hvalue 255).mpr ⟨?_, by decide⟩, hsame _ (by decide)⟩
  rw [hbare]
  exact .announced (by decide) hdigits

end Dcpu.Numeral
