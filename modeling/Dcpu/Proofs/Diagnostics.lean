import Dcpu.Proofs.FixedPoint

/-! Which entries end up with an illegal expression. Faults are kept from pass to pass, so an entry
has one if an expression of it had no value when some pass came to it. -/
namespace Dcpu
open Answer

/-- Some expression of the entry has no value against the symbols. -/
def Entry.Fails (v : Session) (s : SymbolTable) (e : Entry) : Prop :=
  ∃ x ∈ e.body.texts, ∃ r, Expr.eval (v.context s e.position) x = .ok r ∧ r.ok = false

section Outcome

variable {v : Session} {s t : SymbolTable} {e new : Entry} {long : Bool}

/-- What has been evaluated tells whether the entry fails, before further marks and after them. -/
theorem Outcome.fails_iff {ok : Bool} (h : Outcome v s e.position e.body.texts ok)
    (ht : s.Marked t) (marks : ∀ x ∈ e.body.texts, IgnoresMarks v x) :
    e.Fails v t ↔ ok = false := by
  constructor
  · rintro ⟨x, hx, r, hr, hok⟩
    by_contra hgood
    obtain ⟨r', hr', hok'⟩ :=
      (h.good (by simpa using hgood) x hx).exists_eval ht (marks x hx t e.position)
    obtain rfl := Except.ok.inj (hr.symm.trans hr')
    simp [hok] at hok'
  · intro hbad
    obtain ⟨x, hx, ha⟩ := h.bad hbad
    obtain ⟨r, hr, hok⟩ := ha.exists_eval ht (marks x hx t e.position)
    exact ⟨x, hx, r, hr, hok⟩

theorem Entry.fails_congr (hp : new.position = e.position) (hx : new.body.texts = e.body.texts) :
    new.Fails v s ↔ e.Fails v s := by
  rw [Fails, Fails, hp, hx]

/-- An entry without a fault gets one exactly if it fails; a fault that is there stays. -/
theorem Entry.refresh_fault (h : e.refresh v s long = .ok (new, t))
    (marks : ∀ x ∈ e.body.texts, IgnoresMarks v x) :
    (e.Fails v s ∧ new.fault = e.fault.or (some .illegalExpression)) ∨
      (¬e.Fails v s ∧ new.fault = e.fault) := by
  obtain ⟨ok, ho, hf⟩ := Entry.refresh_outcome h
  have hiff := ho.fails_iff (.refl s) marks
  cases ok with
  | true => exact .inr ⟨by simp [hiff], hf⟩
  | false => exact .inl ⟨hiff.mpr rfl, hf⟩

end Outcome

namespace Layout

variable {v : Session} {l l' m : Layout} {i k n : Nat} {e : Entry}

/-- In the pass after the first `n`, the entry `k` fails when the pass comes to it. -/
def FailsIn (v : Session) (l : Layout) (n k : Nat) : Prop :=
  ∃ m m' e, Rounds v n l m ∧ m.passTo v k = .ok m' ∧ m'.entries[k]? = some e ∧ e.Fails v m'.symbols

/-- The pass comes to the entry in one state only. -/
theorem failsIn_iff (hn : Rounds v n l m) (hm : m.passTo v k = .ok l')
    (he : l'.entries[k]? = some e) : l.FailsIn v n k ↔ e.Fails v l'.symbols := by
  constructor
  · rintro ⟨m₁, m₂, f, h₁, h₂, hf, hfail⟩
    obtain rfl := hn.unique h₁
    obtain rfl := Except.ok.inj (hm.symm.trans h₂)
    obtain rfl := Option.some.inj (he.symm.trans hf)
    exact hfail
  · intro hfail
    exact ⟨m, l', e, hn, hm, he, hfail⟩

/-- After some passes an entry that had no fault has one exactly if it failed in one of them. -/
theorem Rounds.fault (h : Rounds v n l l') (he : l.entries[k]? = some e)
    (hv : e.body.isVariable = true) (hf : e.fault = none)
    (marks : ∀ x ∈ e.body.texts, IgnoresMarks v x) :
    ∃ e', l'.entries[k]? = some e' ∧ e'.body.isVariable = true ∧
      e'.body.texts = e.body.texts ∧ (e'.fault = none ∨ e'.fault = some .illegalExpression) ∧
      (e'.fault = some .illegalExpression ↔ ∃ j < n, l.FailsIn v j k) := by
  induction n generalizing l' with
  | zero =>
    obtain rfl := h
    exact ⟨e, he, hv, rfl, .inl hf, by simp [hf]⟩
  | succ n ih =>
    obtain ⟨m, hm, hp⟩ := h
    obtain ⟨e', he', hv', hx, hcases, hiff⟩ := ih hm
    obtain ⟨m', delta, new, s, hto, hd, hr, hnew⟩ := pass_getElem? hp he' hv'
    have hxnew : new.body.texts = e.body.texts :=
      (Entry.texts_of_skeleton (Entry.refresh_skeleton hr)).trans hx
    have hfail : l.FailsIn v n k ↔ (e'.moveBy delta).Fails v m'.symbols := failsIn_iff hm hto hd
    have hsplit : (∃ j < n + 1, l.FailsIn v j k) ↔
        (∃ j < n, l.FailsIn v j k) ∨ l.FailsIn v n k := by
      simp only [Nat.lt_succ_iff_lt_or_eq, or_and_right, exists_or, exists_eq_left]
    have hfault : (e'.moveBy delta).fault = e'.fault := rfl
    refine ⟨new, hnew, (Entry.refresh_cases (e := e'.moveBy delta) hv' hr).2.1.isVariable,
      hxnew, ?_⟩
    rw [hsplit, ← hiff, hfail]
    rw [← hx] at marks
    rcases Entry.refresh_fault hr marks with ⟨hbad, hn⟩ | ⟨hgood, hn⟩
    · rcases hcases with hc | hc <;> simp [hn, hfault, hc, hbad]
    · rcases hcases with hc | hc <;> simp [hn, hfault, hc, hgood]

/-- A step that counts as no change only sets marks. -/
theorem refreshAt_marked (h : l.refreshAt v i = .ok l') (hc : l'.changed = false) :
    l.symbols.Marked l'.symbols := by
  obtain ⟨-, rfl⟩ | ⟨e, -, -, rfl⟩ | ⟨e, new, s, -, hv, hr, rfl⟩ := refreshAt_cases h
  · exact .refl _
  · exact .refl _
  · rw [replace_of_room_eq (replace_quiet hc).2]
    exact (Entry.refresh_cases hv hr).2.2

theorem passTo_marked (hm : l.passTo v k = .ok m) (hk : k ≤ n) (h : l.passTo v n = .ok l')
    (hc : l'.changed = false) : m.symbols.Marked l'.symbols := by
  refine passTo_induct (P := fun i m' => k ≤ i → m'.changed = false → m.symbols.Marked m'.symbols)
    h ?_ ?_ hk hc
  · intro hi _
    obtain rfl := Nat.le_zero.mp hi
    obtain rfl := pure_eq_ok.mp hm
    exact .refl _
  · intro i m₁ m₂ h₁ hr ih hi hc₂
    rcases Nat.lt_or_ge i k with hlt | hge
    · obtain rfl : k = i + 1 := by omega
      obtain rfl := Except.ok.inj (hm.symm.trans (passTo_succ.mpr ⟨m₁, h₁, hr⟩))
      exact .refl _
    · exact (ih hge (refreshAt_changed hr hc₂)).trans (refreshAt_marked hr hc₂)

/-- In a pass without a change an entry fails exactly if it fails in the end. -/
theorem failsIn_iff_of_quiet (hn : Rounds v n l m) (hp : m.pass v = .ok l')
    (hc : l'.changed = false) (he : l'.entries[k]? = some e) (hv : e.body.isVariable = true)
    (marks : ∀ x ∈ e.body.texts, IgnoresMarks v x) :
    l.FailsIn v n k ↔ e.Fails v l'.symbols := by
  obtain ⟨old, hold, hup⟩ := (Passes.updated (.single hp)).get_back (k := k) (by simpa using he)
  have hold : m.entries[k]? = some old := by simpa using hold
  have hvo : old.body.isVariable = true := hup.isVariable_eq.symm.trans hv
  obtain ⟨m', delta, new, s, hto, hd, hr, hnew⟩ := pass_getElem? hp hold hvo
  obtain rfl := Option.some.inj (hnew.symm.trans he)
  have hk : k ≤ m.entries.size := Nat.le_of_lt (Array.getElem?_eq_some_iff.mp hold).1
  have hpos : new.position = (old.moveBy delta).position := by
    rw [(Entry.refresh_cases (e := old.moveBy delta) hvo hr).1]
    rfl
  have hx : new.body.texts = (old.moveBy delta).body.texts :=
    Entry.texts_of_skeleton (Entry.refresh_skeleton hr)
  obtain ⟨ok, ho, -⟩ := Entry.refresh_outcome hr
  rw [failsIn_iff hn hto hd, Entry.fails_congr hpos hx]
  rw [hx] at marks
  rw [ho.fails_iff (.refl _) marks, ho.fails_iff (passTo_marked hto hk hp hc) marks]

end Layout

/-- An instruction or deferred data without a fault when all lines have been read ends up with an
illegal expression exactly if some expression of it had no value when a pass came to it. At a fixed
point this is so if one has no value in the end, or had none in an earlier pass. -/
theorem illegalExpression_iff {v : Session} {steps k : Nat} {file source : Text} {d : Draft}
    {a : Assembly} {e₀ e : Entry} (hd : (v.start file source).readAll v steps = .ok d)
    (h : v.run steps file source = .ok a) (hk : d.entries[k]? = some e₀)
    (hv : e₀.body.isVariable = true) (hf : e₀.fault = none)
    (marks : ∀ x ∈ e₀.body.texts, IgnoresMarks v x) (he : a.entries[k]? = some e) :
    (e.fault = some .illegalExpression ↔ ∃ n < a.passes, d.layout.FailsIn v n k) ∧
    (a.fixedPoint = true → (e.fault = some .illegalExpression ↔
      e.Fails v a.symbols ∨ ∃ n, n + 1 < a.passes ∧ d.layout.FailsIn v n k)) := by
  obtain ⟨d', l, hd', hr, hae, has, hfix⟩ := Session.run_rounds h
  obtain rfl := Except.ok.inj (hd.symm.trans hd')
  obtain ⟨f, hlf, hvf, hx, -, hiff⟩ := hr.fault (l := d.layout) hk hv hf marks
  have hle : l.entries[k]? = some e := by simpa [hae] using he
  obtain rfl := Option.some.inj (hlf.symm.trans hle)
  refine ⟨hiff, fun hfixed => ?_⟩
  obtain ⟨hpos, hc⟩ := hfix hfixed
  obtain ⟨n, hn⟩ : ∃ n, a.passes = n + 1 := ⟨a.passes - 1, by omega⟩
  rw [hiff, has]
  rw [hn] at hr ⊢
  obtain ⟨m, hm, hp⟩ := hr
  rw [← hx] at marks
  rw [← Layout.failsIn_iff_of_quiet hm hp hc hlf hvf marks]
  simp only [Nat.add_lt_add_iff_right]
  constructor
  · rintro ⟨j, hj, hfail⟩
    rcases Nat.lt_succ_iff_lt_or_eq.mp hj with hlt | rfl
    · exact .inr ⟨j, hlt, hfail⟩
    · exact .inl hfail
  · rintro (hfail | ⟨j, hj, hfail⟩)
    · exact ⟨n, Nat.lt_succ_self n, hfail⟩
    · exact ⟨j, Nat.lt_succ_of_lt hj, hfail⟩

theorem Entry.not_fails {v : Session} {s : SymbolTable} {e : Entry}
    (h : (e.body.texts.all fun x =>
      (Expr.eval (v.context s e.position) x).toOption.any Result.ok) = true) : ¬e.Fails v s := by
  rintro ⟨x, hx, r, hr, hok⟩
  have hall := List.all_eq_true.mp h x hx
  simp [hr, Except.toOption, hok] at hall

theorem ignoresMarks_quotient : IgnoresMarks .bare "10/(end-3)".toList :=
  ignoresMarks_of_standard rfl (by decide)

/-- When the quotient is first computed there are three words before `end`, at the end there are
two. -/
theorem quotient_read : ∃ (d : Draft) (e : Entry),
    (Session.bare.start [] "DAT 10/(end-3)\nSET A, end\n:end".toList).readAll .bare 9 = .ok d ∧
    d.entries[0]? = some e ∧ e.body.isVariable = true ∧ e.fault = none ∧
    e.body.texts = ["10/(end-3)".toList] := by
  obtain ⟨d, hd, hp⟩ := exists_ok
    (x := (Session.bare.start [] "DAT 10/(end-3)\nSET A, end\n:end".toList).readAll .bare 9)
    (p := fun d => d.entries[0]?.any fun e => e.body.isVariable && e.fault.isNone &&
      e.body.texts == ["10/(end-3)".toList])
    (by decide +kernel)
  obtain ⟨e, he, hp⟩ := (Option.any_eq_true _ _).mp hp
  simp only [Bool.and_eq_true, beq_iff_eq, Option.isNone_iff_eq_none] at hp
  exact ⟨d, e, hd, he, hp.1.1, hp.1.2, hp.2⟩

theorem quotient_run : ∃ (a : Assembly) (e : Entry),
    Session.bare.run 9 [] "DAT 10/(end-3)\nSET A, end\n:end".toList = .ok a ∧
    a.fixedPoint = true ∧ a.entries[0]? = some e ∧ e.fault = some .illegalExpression ∧
    ¬e.Fails .bare a.symbols := by
  obtain ⟨a, ha, hp⟩ := exists_ok
    (x := Session.bare.run 9 [] "DAT 10/(end-3)\nSET A, end\n:end".toList)
    (p := fun a => a.fixedPoint && a.entries[0]?.any fun e =>
      e.fault == some .illegalExpression && e.body.texts.all fun x =>
        (Expr.eval (Session.bare.context a.symbols e.position) x).toOption.any Result.ok)
    (by decide +kernel)
  simp only [Bool.and_eq_true] at hp
  obtain ⟨hfix, hp⟩ := hp
  obtain ⟨e, he, hp⟩ := (Option.any_eq_true _ _).mp hp
  simp only [Bool.and_eq_true, beq_iff_eq] at hp
  exact ⟨a, e, ha, hfix, he, hp.1, Entry.not_fails hp.2⟩

/-- The quotient has a value in the end, so its fault is from an earlier pass. -/
theorem illegalExpression_iff_quotient : ∃ (d : Draft) (a : Assembly) (e : Entry),
    (Session.bare.start [] "DAT 10/(end-3)\nSET A, end\n:end".toList).readAll .bare 9 = .ok d ∧
    Session.bare.run 9 [] "DAT 10/(end-3)\nSET A, end\n:end".toList = .ok a ∧
    a.entries[0]? = some e ∧ e.fault = some .illegalExpression ∧
    ∃ n, n + 1 < a.passes ∧ d.layout.FailsIn .bare n 0 := by
  obtain ⟨d, e₀, hd, hk, hv, hf, hx⟩ := quotient_read
  obtain ⟨a, e, ha, hfix, he, hfault, hgood⟩ := quotient_run
  have marks : ∀ x ∈ e₀.body.texts, IgnoresMarks .bare x := by
    simpa [hx] using ignoresMarks_quotient
  have hiff := (illegalExpression_iff hd ha hk hv hf marks he).2 hfix
  exact ⟨d, a, e, hd, ha, he, hfault, (hiff.mp hfault).resolve_left hgood⟩

/-- At a fixed point an entry can have an illegal expression although all of its expressions have
values. -/
theorem illegalExpression_stale : ∃ (d : Draft) (a : Assembly) (e₀ e : Entry),
    (Session.bare.start [] "DAT 10/(end-3)\nSET A, end\n:end".toList).readAll .bare 9 = .ok d ∧
    d.entries[0]? = some e₀ ∧ e₀.body.isVariable = true ∧ e₀.fault = none ∧
    (∀ x ∈ e₀.body.texts, IgnoresMarks .bare x) ∧
    Session.bare.run 9 [] "DAT 10/(end-3)\nSET A, end\n:end".toList = .ok a ∧
    a.fixedPoint = true ∧ a.entries[0]? = some e ∧
    ¬(e.fault = some .illegalExpression ↔ e.Fails .bare a.symbols) := by
  obtain ⟨d, e₀, hd, hk, hv, hf, hx⟩ := quotient_read
  obtain ⟨a, e, ha, hfix, he, hfault, hgood⟩ := quotient_run
  refine ⟨d, a, e₀, e, hd, hk, hv, hf, ?_, ha, hfix, he, fun hiff => hgood (hiff.mp hfault)⟩
  simpa [hx] using ignoresMarks_quotient

end Dcpu
