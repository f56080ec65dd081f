import Dcpu.Proofs.Scanning

/-! Names in a symbol table. Every table that comes from the empty one has names that are words, and
no name in it is both an equate and a label. -/
namespace Dcpu

namespace Name

/-- How a name in the table is spelled. A local name without a scope starts with `_`. -/
def isStored : Text → Bool
  | [] => false
  | c :: t => (c.isAlpha || c == '_') && t.all Text.isWordChar

variable {t u : Text}

theorem qualify_of_global {scope : Option Text} (h : t.head? ≠ some '.') : qualify scope t = t := by
  unfold qualify
  split
  next => exact absurd rfl h
  next => rfl

theorem isWordChar_of_isStored (h : isStored t = true) : ∀ c ∈ t, Text.isWordChar c = true := by
  cases t with
  | nil => cases h
  | cons c t =>
    obtain ⟨hc, ht⟩ := Bool.and_eq_true_iff.mp h
    refine List.forall_mem_cons.mpr ⟨?_, List.all_eq_true.mp ht⟩
    rcases Bool.or_eq_true_iff.mp hc with hc | hc
    · simp [Text.isWordChar, Expr.Group.isNameChar, Char.isAlphanum, hc]
    · simp [Text.isWordChar, Expr.Group.isNameChar, hc]

theorem isStored_of_isValid (h : isValid t = true) : isStored t = true := by
  cases t with
  | nil => cases h
  | cons c t =>
    obtain ⟨hc, ht⟩ := Bool.and_eq_true_iff.mp h
    exact Bool.and_eq_true_iff.mpr ⟨by rw [hc]; rfl, ht⟩

theorem isStored_append (ht : isStored t = true) (hu : ∀ c ∈ u, Text.isWordChar c = true) :
    isStored (t ++ u) = true := by
  cases t with
  | nil => cases ht
  | cons c t =>
    obtain ⟨hc, ht⟩ := Bool.and_eq_true_iff.mp ht
    rw [List.cons_append, isStored, hc, List.all_append, ht, List.all_eq_true.mpr hu]
    rfl

theorem isStored_lower (t : Text) : isStored (Text.lower t) = isStored t := by
  cases t with
  | nil => rfl
  | cons c t =>
    have ht : (Text.lower t).all Text.isWordChar = t.all Text.isWordChar := by
      rw [Text.lower, List.all_map]
      exact congrArg t.all (funext Text.isWordChar_toLower)
    show ((c.toLower.isAlpha || c.toLower == '_') && (Text.lower t).all Text.isWordChar) = _
    rw [Text.isAlpha_toLower, Text.toLower_beq (by decide), ht, isStored]

end Name

namespace SymbolTable

/-- The tables that come from the empty one. -/
inductive Reached : SymbolTable → Prop where
  | empty : Reached {}
  | equate {s t : SymbolTable} {name : Text} {value : Word} (hs : Reached s)
      (h : s.defineEquate name value = (.ok (), t)) : Reached t
  | label {s t : SymbolTable} {name stored : Text} {address : Word} {position : Nat}
      (hs : Reached s) (h : s.defineLabel name address position = (.ok stored, t)) : Reached t
  | anonymous {s : SymbolTable} (root : Nat) (address : Word) (position : Nat) (hs : Reached s) :
      Reached (s.defineAnonymous root address position)
  | mark {s : SymbolTable} (names : List Text) (hs : Reached s) : Reached (s.markReferenced names)
  | shift {s : SymbolTable} (after before : Nat) (delta : Int) (hs : Reached s) :
      Reached (s.shift after before delta)

/-- The names are spelled as names, and none is both an equate and a label. -/
structure WellNamed (s : SymbolTable) : Prop where
  equates : ∀ e ∈ s.equates, Name.isStored e.1 = true
  labels : ∀ l ∈ s.labels, Name.isStored l.1 = true
  scope : ∀ g ∈ s.scope, Name.isStored g = true
  disjoint : ∀ e ∈ s.equates, ∀ l ∈ s.labels, e.1 ≠ l.1

section Names

variable {s t : SymbolTable} {name stored : Text}

theorem isStored_of_storedName? (h : s.WellNamed) (hn : s.storedName? name = some stored) :
    Name.isStored stored = true := by
  unfold storedName? at hn
  split at hn
  next u =>
    obtain ⟨hu, hn⟩ := Option.ite_none_right_eq_some.mp hn
    obtain rfl := Option.some.inj hn
    have hw := Name.isWordChar_of_isStored (Name.isStored_of_isValid hu)
    cases hs : s.scope with
    | none => exact Bool.and_eq_true_iff.mpr ⟨rfl, List.all_eq_true.mpr hw⟩
    | some g =>
      refine Name.isStored_append (h.scope g hs) (List.forall_mem_cons.mpr ⟨by decide, hw⟩)
  next =>
    obtain ⟨hu, hn⟩ := Option.ite_none_right_eq_some.mp hn
    obtain rfl := Option.some.inj hn
    exact Name.isStored_of_isValid hu

theorem equates_ne_of_isDefined (h : s.isDefined name = false) :
    (∀ e ∈ s.equates, e.1 ≠ Text.lower name) ∧ ∀ l ∈ s.labels, l.1 ≠ Text.lower name := by
  obtain ⟨he, hl⟩ := Bool.or_eq_false_iff.mp h
  rw [Option.isSome_eq_false_iff, Option.isNone_iff_eq_none, equate?,
    List.lookup_eq_none_iff] at he
  rw [Option.isSome_eq_false_iff, Option.isNone_iff_eq_none, label?,
    List.lookup_eq_none_iff] at hl
  refine ⟨fun e hm hk => ?_, fun l hm hk => ?_⟩
  · simpa [hk] using he e hm
  · simpa [hk] using hl l hm

theorem WellNamed.equate (h : s.WellNamed) {value : Word}
    (ht : s.defineEquate name value = (.ok (), t)) : t.WellNamed := by
  obtain ⟨hv, hd, rfl⟩ := defineEquate_eq_ok.mp ht
  have hne := (equates_ne_of_isDefined hd).2
  refine ⟨List.forall_mem_cons.mpr ⟨?_, h.equates⟩, h.labels, h.scope,
    List.forall_mem_cons.mpr ⟨fun l hl => (hne l hl).symm, h.disjoint⟩⟩
  rw [Name.isStored_lower]
  exact Name.isStored_of_isValid hv

theorem WellNamed.label (h : s.WellNamed) {address : Word} {position : Nat}
    (ht : s.defineLabel name address position = (.ok stored, t)) : t.WellNamed := by
  obtain ⟨hn, hd, rfl⟩ := defineLabel_eq_ok.mp ht
  have hne := (equates_ne_of_isDefined hd).1
  have hs := isStored_of_storedName? h hn
  refine ⟨h.equates, List.forall_mem_cons.mpr ⟨by rwa [Name.isStored_lower], h.labels⟩, ?_,
    fun e he => List.forall_mem_cons.mpr ⟨hne e he, h.disjoint e he⟩⟩
  dsimp only
  split
  · exact h.scope
  · rintro g ⟨⟩
    exact hs

theorem WellNamed.shift (h : s.WellNamed) (after before : Nat) (delta : Int) :
    (s.shift after before delta).WellNamed := by
  have hk (l : Text × Label) (hl : l ∈ (s.shift after before delta).labels) :
      ∃ m ∈ s.labels, m.1 = l.1 := by
    obtain ⟨m, hm, rfl⟩ := List.mem_map.mp hl
    exact ⟨m, hm, rfl⟩
  refine ⟨h.equates, fun l hl => ?_, h.scope, fun e he l hl => ?_⟩
  · obtain ⟨m, hm, hml⟩ := hk l hl
    exact hml ▸ h.labels m hm
  · obtain ⟨m, hm, hml⟩ := hk l hl
    exact hml ▸ h.disjoint e he m hm

theorem Reached.wellNamed (h : s.Reached) : s.WellNamed := by
  induction h with
  | empty => exact ⟨by simp, by simp, by simp, by simp⟩
  | equate _ h ih => exact ih.equate h
  | label _ h ih => exact ih.label h
  | anonymous root address position _ ih => exact ⟨ih.equates, ih.labels, ih.scope, ih.disjoint⟩
  | mark names _ ih => exact ⟨ih.equates, ih.labels, ih.scope, ih.disjoint⟩
  | shift after before delta _ ih => exact ih.shift after before delta

theorem mem_of_lookup {α : Type} {l : List (Text × α)} {k : Text} {v : α}
    (h : l.lookup k = some v) : (k, v) ∈ l := by
  obtain ⟨l₁, l₂, rfl, -⟩ := List.lookup_eq_some_iff.mp h
  simp

/-- A name that is defined is spelled as a name. -/
theorem WellNamed.isStored (h : s.WellNamed) (hd : s.isDefined name = true) :
    Name.isStored name = true := by
  rw [← Name.isStored_lower]
  rcases Bool.or_eq_true_iff.mp hd with he | hl
  · obtain ⟨v, hv⟩ := Option.isSome_iff_exists.mp he
    exact h.equates _ (mem_of_lookup hv)
  · obtain ⟨l, hl⟩ := Option.isSome_iff_exists.mp hl
    exact h.labels _ (mem_of_lookup hl)

theorem WellNamed.label?_eq_none (h : s.WellNamed) {v : Word} (he : s.equate? name = some v) :
    s.label? name = none := by
  cases hl : s.label? name with
  | none => rfl
  | some l => exact absurd rfl (h.disjoint _ (mem_of_lookup he) _ (mem_of_lookup hl))

end Names

end SymbolTable

end Dcpu
