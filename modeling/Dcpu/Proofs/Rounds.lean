import Dcpu.Proofs.LayoutSteps
import Dcpu.Proofs.Outcome

/-! Passes counted and followed from entry to entry: what becomes of an entry when a pass comes to
it, before that and after that. -/
namespace Dcpu
open Answer

namespace Layout

variable {v : Session} {l l' m : Layout} {i k n : Nat} {e : Entry}

/-- The layout when a pass has come to the entry `i`. -/
def passTo (v : Session) (i : Nat) (l : Layout) : Except Abort Layout :=
  (List.range i).foldlM (refreshAt v) { l with long := v.settings.longLiterals, changed := false }

theorem passTo_succ : l.passTo v (i + 1) = .ok l' ↔
    ∃ m, l.passTo v i = .ok m ∧ m.refreshAt v i = .ok l' := by
  rw [passTo, List.range_succ, List.foldlM_append, bind_eq_ok]
  simp only [List.foldlM_cons, List.foldlM_nil, bind_pure]
  rfl

/-- What holds at the start of a pass and is kept from entry to entry holds where it comes to. -/
theorem passTo_induct {P : Nat → Layout → Prop} (h : l.passTo v n = .ok l')
    (start : P 0 { l with long := v.settings.longLiterals, changed := false })
    (step : ∀ i m m', l.passTo v i = .ok m → m.refreshAt v i = .ok m' → P i m → P (i + 1) m') :
    P n l' := by
  induction n generalizing l' with
  | zero =>
    obtain rfl := pure_eq_ok.mp h
    exact start
  | succ n ih =>
    obtain ⟨m, hm, hr⟩ := passTo_succ.mp h
    exact step n m l' hm hr (ih hm)

theorem passTo_updated (h : l.passTo v n = .ok l') :
    Updated l.entries.toList l'.entries.toList := by
  refine passTo_induct (P := fun _ m => Updated l.entries.toList m.entries.toList) h (.refl _) ?_
  intro i m m' _ hr hu
  exact hu.trans (refreshAt_updated hr)

/-- A pass goes through all earlier places. -/
theorem exists_passTo (h : l.passTo v n = .ok l') (hi : i ≤ n) : ∃ m, l.passTo v i = .ok m := by
  induction n generalizing l' with
  | zero =>
    obtain rfl := Nat.le_zero.mp hi
    exact ⟨l', h⟩
  | succ n ih =>
    obtain ⟨m, hm, -⟩ := passTo_succ.mp h
    rcases Nat.lt_or_ge n i with hn | hn
    · obtain rfl : i = n + 1 := by omega
      exact ⟨l', h⟩
    · exact ih hm hn

section Entries

theorem length_take_entries (h : l.entries[i]? = some e) :
    (l.entries.toList.take i).length = i := by
  have hi : i < l.entries.toList.length := (Array.getElem?_eq_some_iff.mp h).1
  rw [List.length_take]
  omega

theorem replace_getElem?_of_lt {old : Entry} (h : l.entries[i]? = some old) (new : Entry)
    (hk : k < i) : (l.replace i old new).entries[k]? = l.entries[k]? := by
  have hl := length_take_entries h
  rw [← Array.getElem?_toList, replace_entries h, List.getElem?_append_left (by omega),
    List.getElem?_take_of_lt hk, Array.getElem?_toList]

theorem replace_getElem?_self {old : Entry} (h : l.entries[i]? = some old) (new : Entry) :
    (l.replace i old new).entries[i]? = some new := by
  have hl := length_take_entries h
  rw [← Array.getElem?_toList, replace_entries h, List.getElem?_append_right (by omega), hl]
  simp

/-- What follows an entry that is replaced only moves, alignments apart. -/
theorem replace_getElem?_of_gt {old : Entry} (h : l.entries[i]? = some old) (new : Entry)
    (hk : i < k) (he : l.entries[k]? = some e) (ha : ∀ target, e.body ≠ .align target) :
    ∃ delta, (l.replace i old new).entries[k]? = some (e.moveBy delta) := by
  have hl := length_take_entries h
  obtain ⟨f, hf⟩ := l.shifted_movedBy i old new
  obtain ⟨j, rfl⟩ : ∃ j, k = i + 1 + j := ⟨k - (i + 1), by omega⟩
  have hj : i + 1 + j - i = j + 1 := by omega
  refine ⟨f (i + 1 + j), ?_⟩
  rw [← Array.getElem?_toList, replace_entries h, List.getElem?_append_right (by omega), hl, hj,
    List.getElem?_cons_succ]
  apply hf.entries j e _ ha
  rw [List.getElem?_drop, Array.getElem?_toList]
  exact he

/-- An entry is left alone after a pass has been there. -/
theorem refreshAt_getElem?_of_lt (h : l.refreshAt v i = .ok l') (hk : k < i) :
    l'.entries[k]? = l.entries[k]? := by
  obtain ⟨-, rfl⟩ | ⟨e, -, -, rfl⟩ | ⟨e, new, s, he, -, -, rfl⟩ := refreshAt_cases h
  · rfl
  · rfl
  · exact replace_getElem?_of_lt (l := { l with symbols := s }) he new hk

/-- An entry only moves before a pass has come to it, alignments apart. -/
theorem refreshAt_getElem?_of_gt (h : l.refreshAt v i = .ok l') (hk : i < k)
    (he : l.entries[k]? = some e) (ha : ∀ target, e.body ≠ .align target) :
    ∃ delta, l'.entries[k]? = some (e.moveBy delta) := by
  obtain ⟨-, rfl⟩ | ⟨e', -, -, rfl⟩ | ⟨e', new, s, he', -, -, rfl⟩ := refreshAt_cases h
  · exact ⟨0, by simpa using he⟩
  · exact ⟨0, by simpa using he⟩
  · exact replace_getElem?_of_gt (l := { l with symbols := s }) he' new hk he ha

/-- An entry with expressions is brought up to date when a pass comes to it. -/
theorem refreshAt_getElem?_self (h : l.refreshAt v i = .ok l') (he : l.entries[i]? = some e)
    (hv : e.body.isVariable = true) :
    ∃ new s, e.refresh v l.symbols l.long = .ok (new, s) ∧ l'.entries[i]? = some new := by
  obtain ⟨hn, -⟩ | ⟨f, hf, hfv, -⟩ | ⟨f, new, s, hf, -, hr, rfl⟩ := refreshAt_cases h
  · simp [hn] at he
  · obtain rfl := Option.some.inj (he.symm.trans hf)
    simp [hv] at hfv
  · obtain rfl := Option.some.inj (he.symm.trans hf)
    exact ⟨new, s, hr, replace_getElem?_self (l := { l with symbols := s }) hf new⟩

theorem ne_align_of_isVariable (hv : e.body.isVariable = true) (target : Word) :
    e.body ≠ .align target := by
  intro hb
  simp [hb, Body.isVariable] at hv

theorem passTo_getElem? (h : l.passTo v i = .ok m) (hk : i ≤ k) (he : l.entries[k]? = some e)
    (hv : e.body.isVariable = true) : ∃ delta, m.entries[k]? = some (e.moveBy delta) := by
  refine passTo_induct (P := fun i m => i ≤ k → ∃ delta, m.entries[k]? = some (e.moveBy delta))
    h ?_ ?_ hk
  · intro _
    exact ⟨0, by simpa using he⟩
  · intro i m m' _ hr ih hi
    obtain ⟨delta, hd⟩ := ih (by omega)
    obtain ⟨delta', hd'⟩ :=
      refreshAt_getElem?_of_gt hr (by omega) hd (ne_align_of_isVariable (e := e.moveBy delta) hv)
    refine ⟨delta + delta', ?_⟩
    rw [hd']
    simp [Entry.moveBy, Word.move_move]

/-- The way of an entry through a pass: it moves, is brought up to date, and stays as it is. -/
theorem pass_getElem? (h : l.pass v = .ok l') (he : l.entries[k]? = some e)
    (hv : e.body.isVariable = true) :
    ∃ m delta new s, l.passTo v k = .ok m ∧ m.entries[k]? = some (e.moveBy delta) ∧
      (e.moveBy delta).refresh v m.symbols m.long = .ok (new, s) ∧ l'.entries[k]? = some new := by
  have hk : k < l.entries.size := (Array.getElem?_eq_some_iff.mp he).1
  obtain ⟨m', hm'⟩ := exists_passTo (i := k + 1) h hk
  obtain ⟨m, hm, hr⟩ := passTo_succ.mp hm'
  obtain ⟨delta, hd⟩ := passTo_getElem? hm (Nat.le_refl k) he hv
  obtain ⟨new, s, hnew, hself⟩ := refreshAt_getElem?_self hr hd hv
  refine ⟨m, delta, new, s, hm, hd, hnew, ?_⟩
  refine passTo_induct (P := fun i m => k < i → m.entries[k]? = some new) h nofun ?_ hk
  intro i m₁ m₂ h₁ hr₁ ih hi
  rcases Nat.lt_succ_iff_lt_or_eq.mp hi with hlt | rfl
  · rw [refreshAt_getElem?_of_lt hr₁ hlt]
    exact ih hlt
  · obtain rfl := Except.ok.inj (hm.symm.trans h₁)
    obtain rfl := Except.ok.inj (hr.symm.trans hr₁)
    exact hself

end Entries

section Skeletons

theorem skeleton_shiftClosed :
    ShiftClosed fun e e' => e'.skeleton = e.skeleton where
  refl _ := rfl
  move _ _ _ _ := rfl
  realign e target delta _ := by
    rw [Entry.realign_eq]
    rfl

theorem refreshAt_skeleton (h : l.refreshAt v i = .ok l') :
    l'.entries.toList.map Entry.skeleton = l.entries.toList.map Entry.skeleton := by
  have hs := refreshAt_forall₂ skeleton_shiftClosed h fun e new s _ _ hr =>
    Entry.refresh_skeleton hr
  generalize l.entries.toList = es, l'.entries.toList = es' at hs ⊢
  induction hs with
  | nil => rfl
  | cons he _ ih => rw [List.map_cons, List.map_cons, he, ih]

/-- Passes change nothing but addresses, faults, values and the form of literals. -/
theorem Passes.skeleton (h : Passes v l l') :
    l'.entries.toList.map Entry.skeleton = l.entries.toList.map Entry.skeleton :=
  h.keeps (P := fun es _ => es.toList.map Entry.skeleton = l.entries.toList.map Entry.skeleton)
    (fun _ _ _ hr hk => (refreshAt_skeleton hr).trans hk) rfl

theorem passTo_skeleton (h : l.passTo v i = .ok m) :
    m.entries.toList.map Entry.skeleton = l.entries.toList.map Entry.skeleton := by
  refine passTo_induct (P := fun _ m =>
    m.entries.toList.map Entry.skeleton = l.entries.toList.map Entry.skeleton) h rfl ?_
  intro i m m' _ hr ih
  exact (refreshAt_skeleton hr).trans ih

end Skeletons

/-- Exactly so many passes. -/
def Rounds (v : Session) : Nat → Layout → Layout → Prop
  | 0, l, l' => l' = l
  | n + 1, l, l' => ∃ m, Rounds v n l m ∧ m.pass v = .ok l'

theorem Rounds.head (hp : l.pass v = .ok m) (h : Rounds v n m l') : Rounds v (n + 1) l l' := by
  induction n generalizing l' with
  | zero =>
    obtain rfl := h
    exact ⟨l, rfl, hp⟩
  | succ n ih =>
    obtain ⟨k, hk, hl⟩ := h
    exact ⟨k, ih hk, hl⟩

theorem Rounds.unique {a b : Layout} (ha : Rounds v n l a) (hb : Rounds v n l b) : a = b := by
  induction n generalizing a b with
  | zero => exact ha.trans hb.symm
  | succ n ih =>
    obtain ⟨m, hm, ha⟩ := ha
    obtain ⟨m', hm', hb⟩ := hb
    obtain rfl := ih hm hm'
    exact Except.ok.inj (ha.symm.trans hb)

/-- The passes are counted; at a fixed point there was one, and the last changed nothing. -/
theorem settle_rounds {left done : Nat} {fixed : Bool}
    (h : l.settle v left done = .ok (l', n, fixed)) :
    ∃ j, n = done + j ∧ Rounds v j l l' ∧ (fixed = true → 0 < j ∧ l'.changed = false) := by
  induction left generalizing l done with
  | zero =>
    obtain ⟨rfl, rfl, rfl⟩ : l = l' ∧ done = n ∧ false = fixed := by simpa [settle] using h
    exact ⟨0, rfl, rfl, fun hfix => absurd hfix Bool.false_ne_true⟩
  | succ left ih =>
    unfold settle at h
    split at h
    next => cases h
    next k hk =>
      split at h
      next hc =>
        obtain ⟨j, hj, hr, hf⟩ := ih h
        exact ⟨j + 1, by omega, hr.head hk, fun hfix => ⟨Nat.succ_pos j, (hf hfix).2⟩⟩
      next hc =>
        obtain ⟨rfl, rfl, rfl⟩ : k = l' ∧ done + 1 = n ∧ true = fixed := by simpa using h
        exact ⟨1, rfl, ⟨l, rfl, hk⟩, fun _ => ⟨Nat.one_pos, by simpa using hc⟩⟩

end Layout

/-- An assembly is what its passes make of the lines that have been read. -/
theorem Session.run_rounds {v : Session} {steps : Nat} {file source : Text} {a : Assembly}
    (h : v.run steps file source = .ok a) :
    ∃ d l, (v.start file source).readAll v steps = .ok d ∧ Layout.Rounds v a.passes d.layout l ∧
      a.entries = l.entries.toList ∧ a.symbols = l.symbols ∧
      (a.fixedPoint = true → 0 < a.passes ∧ l.changed = false) := by
  obtain ⟨d, hd, h⟩ := bind_eq_ok.mp h
  obtain ⟨⟨l, n, fixed⟩, hs, h⟩ := bind_eq_ok.mp h
  obtain rfl := pure_eq_ok.mp h
  obtain ⟨j, hj, hr, hf⟩ := Layout.settle_rounds hs
  obtain rfl : n = j := by omega
  exact ⟨d, l, hd, hr, rfl, rfl, hf⟩

end Dcpu
