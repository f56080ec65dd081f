import Dcpu.Abort

/-! Computations that can be aborted: what is known once one of them has given an answer. -/
namespace Dcpu.Answer

variable {α β : Type}

theorem bind_eq_ok {x : Except Abort α} {f : α → Except Abort β} {b : β} :
    x >>= f = .ok b ↔ ∃ a, x = .ok a ∧ f a = .ok b := by
  cases x <;> simp [bind, Except.bind]

theorem pure_eq_ok {a b : α} : (pure a : Except Abort α) = .ok b ↔ a = b := by
  simp [pure, Except.pure]

/-- An answer that can be computed is there. -/
theorem exists_ok {x : Except Abort α} {p : α → Bool} (h : x.toOption.any p = true) :
    ∃ a, x = .ok a ∧ p a = true := by
  cases x with
  | ok a => exact ⟨a, rfl, h⟩
  | error e => cases h

theorem toOption_eq_some {x : Except Abort α} {a : α} : x.toOption = some a ↔ x = .ok a := by
  cases x <;> simp [Except.toOption]

theorem bind_eq_error {x : Except Abort α} {f : α → Except Abort β} {e : Abort} :
    x >>= f = .error e ↔ x = .error e ∨ ∃ a, x = .ok a ∧ f a = .error e := by
  cases x <;> simp [bind, Except.bind]

theorem map_eq_error {x : Except Abort α} {f : α → β} {e : Abort} :
    x.map f = .error e ↔ x = .error e := by
  cases x <;> simp [Except.map]

theorem map_eq_ok {x : Except Abort α} {f : α → β} {b : β} :
    x.map f = .ok b ↔ ∃ a, x = .ok a ∧ f a = b := by
  cases x <;> simp [Except.map]

/-- What every step of a fold keeps, the whole fold keeps. -/
theorem foldlM_keeps {f : β → α → Except Abort β} {P : β → Prop}
    (step : ∀ b a b', P b → f b a = .ok b' → P b') {as : List α} {b b' : β} (hb : P b)
    (h : as.foldlM f b = .ok b') : P b' := by
  induction as generalizing b with
  | nil =>
    obtain rfl := pure_eq_ok.mp h
    exact hb
  | cons a as ih =>
    obtain ⟨c, hc, h⟩ := bind_eq_ok.mp h
    exact ih (step b a c hb hc) h

/-- A fold over the first numbers, with a property that knows how many of them are done. -/
theorem foldlM_range_keeps {f : β → Nat → Except Abort β} {P : Nat → β → Prop}
    (step : ∀ i b b', P i b → f b i = .ok b' → P (i + 1) b') {n : Nat} {b b' : β} (hb : P 0 b)
    (h : (List.range n).foldlM f b = .ok b') : P n b' := by
  induction n generalizing b' with
  | zero =>
    obtain rfl := pure_eq_ok.mp h
    exact hb
  | succ n ih =>
    rw [List.range_succ, List.foldlM_append] at h
    obtain ⟨c, hc, h⟩ := bind_eq_ok.mp h
    obtain ⟨d, hd, h⟩ := bind_eq_ok.mp h
    obtain rfl := pure_eq_ok.mp h
    exact step n c d (ih hc) hd

end Dcpu.Answer
