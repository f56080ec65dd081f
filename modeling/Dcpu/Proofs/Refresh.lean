import Dcpu.Proofs.Marks

/-! Bringing entries up to date: the values that come out of it, and all that stays as it was. -/
namespace Dcpu
open Answer

variable {v : Session} {s t : SymbolTable} {p : Position} {ok : Bool}

/-- The text has been evaluated; `ok` says whether it has a value, and if so it is `value`. -/
def Evaluated (v : Session) (s : SymbolTable) (p : Position) (text : Text) (value : Word)
    (ok : Bool) : Prop :=
  ∃ r, Expr.eval (v.context s p) text = .ok r ∧ r.ok = ok ∧ (ok = true → value = r.value)

/-- The literal of an operand is evaluated, if there is one, and gets the value that comes out. -/
theorem Operand.refresh_cases {o o' : Operand} (h : o.refresh v s p = .ok (o', ok, t)) :
    (o.literal = none ∧ o' = o ∧ ok = true ∧ t = s) ∨
    ∃ l r, o.literal = some l ∧ v.eval s p l.text = .ok (r, t) ∧ ok = r.ok ∧
      o' = { o with literal := some { l with value := if r.ok then r.value else l.value } } := by
  unfold Operand.refresh at h
  split at h
  next hn =>
    obtain ⟨rfl, rfl, rfl⟩ : o = o' ∧ true = ok ∧ s = t := by simpa using h
    exact .inl ⟨hn, rfl, rfl, rfl⟩
  next l hl =>
    obtain ⟨⟨l', ok', t'⟩, hr, h⟩ := bind_eq_ok.mp h
    obtain ⟨⟨r, u⟩, he, hr⟩ := bind_eq_ok.mp hr
    obtain ⟨rfl, rfl, rfl⟩ : (if r.ok then { l with value := r.value } else l) = l' ∧
      r.ok = ok' ∧ u = t' := by simpa using pure_eq_ok.mp hr
    obtain ⟨rfl, rfl, rfl⟩ : { o with
      literal := some (if r.ok then { l with value := r.value } else l) } = o' ∧
      r.ok = ok ∧ u = t := by simpa using pure_eq_ok.mp h
    refine .inr ⟨l, r, hl, he, rfl, ?_⟩
    cases r.ok <;> rfl

/-- The literal of an operand has been evaluated, if there is one. -/
def Operand.IsEvaluated (v : Session) (s : SymbolTable) (p : Position) (o : Operand) (ok : Bool) :
    Prop :=
  ∀ l, o.literal = some l → Evaluated v s p l.text l.value ok

theorem Operand.refresh_evaluated {o o' : Operand} (h : o.refresh v s p = .ok (o', ok, t)) :
    o'.IsEvaluated v s p ok ∧ s.Marked t := by
  rcases Operand.refresh_cases h with ⟨hn, rfl, -, rfl⟩ | ⟨l, r, -, he, rfl, rfl⟩
  · exact ⟨fun l hl => by simp [hn] at hl, .refl _⟩
  · refine ⟨fun k hk => ?_, Session.eval_marked he⟩
    obtain rfl := Option.some.inj hk
    exact ⟨r, (Session.eval_eq_ok.mp he).1, rfl, fun hok => if_pos hok⟩

/-- Both operands have been evaluated, `a` before `b`, and the literal of `a` is packed if its form
and value allow it. -/
def Instruction.IsEvaluated (v : Session) (s : SymbolTable) (p : Position) (long : Bool)
    (i : Instruction) : Prop :=
  ∃ ok u, i.a.IsEvaluated v s p ok ∧ s.Marked u ∧
    (∀ b, i.b = some b → ∃ okB, b.IsEvaluated v u p okB) ∧
    i.packed = (ok && !long && i.a.code == nextWordCode && i.a.fitsPacked)

/-- Operand `a` is brought up to date, then `b` if there is one. -/
theorem Instruction.refresh_cases {i i' : Instruction} {long : Bool}
    (h : i.refresh v s p long = .ok (i', ok, t)) :
    ∃ a okA u, i.a.refresh v s p = .ok (a, okA, u) ∧
      ((i.b = none ∧ ok = okA ∧ t = u ∧
        i' = ({ i with a := a } : Instruction).pack (okA && !long)) ∨
      ∃ b b' okB, i.b = some b ∧ b.refresh v u p = .ok (b', okB, t) ∧ ok = (okA && okB) ∧
        i' = ({ i with a := a, b := some b' } : Instruction).pack (okA && !long)) := by
  obtain ⟨⟨a, okA, u⟩, ha, h⟩ := bind_eq_ok.mp h
  refine ⟨a, okA, u, ha, ?_⟩
  dsimp only at h
  split at h
  next hn =>
    obtain ⟨rfl, rfl, rfl⟩ : Instruction.pack (okA && !long) { i with a := a } = i' ∧
      okA = ok ∧ u = t := by simpa using pure_eq_ok.mp h
    exact .inl ⟨hn, rfl, rfl, rfl⟩
  next b hb =>
    obtain ⟨⟨b', okB, w⟩, hb', h⟩ := bind_eq_ok.mp h
    obtain ⟨rfl, rfl, rfl⟩ : Instruction.pack (okA && !long) { i with a := a, b := some b' } = i' ∧
      (okA && okB) = ok ∧ w = t := by simpa using pure_eq_ok.mp h
    exact .inr ⟨b, b', okB, hb, hb', rfl, rfl⟩

theorem Instruction.refresh_evaluated {i i' : Instruction} {long : Bool}
    (h : i.refresh v s p long = .ok (i', ok, t)) : i'.IsEvaluated v s p long ∧ s.Marked t := by
  obtain ⟨a, okA, u, ha, ⟨hn, -, rfl, rfl⟩ | ⟨b, b', okB, -, hb, -, rfl⟩⟩ :=
    Instruction.refresh_cases h
  · obtain ⟨hea, hu⟩ := Operand.refresh_evaluated ha
    refine ⟨⟨okA, t, hea, hu, fun b hb => ?_, rfl⟩, hu⟩
    exact absurd (hn.symm.trans hb) (by simp)
  · obtain ⟨hea, hu⟩ := Operand.refresh_evaluated ha
    obtain ⟨heb, hw⟩ := Operand.refresh_evaluated hb
    refine ⟨⟨okA, u, hea, hu, fun c hc => ?_, rfl⟩, hu.trans hw⟩
    obtain rfl := Option.some.inj hc
    exact ⟨okB, heb⟩

/-- The expression of a cell has been evaluated, if there is one. -/
def Cell.IsEvaluated (v : Session) (s : SymbolTable) (p : Position) (c : Cell) : Prop :=
  ∀ x, c.deferred = some x → ∃ u ok, s.Marked u ∧ Evaluated v u p x c.value ok

/-- A cell is evaluated if it has an expression, and gets the value that comes out. -/
theorem CellRun.add_cases {run run' : CellRun} {c : Cell} (h : run.add v p c = .ok run') :
    (c.deferred = none ∧ run' = { run with cells := run.cells.push c }) ∨
    ∃ x r, c.deferred = some x ∧ v.eval run.symbols p x = .ok (r, run'.symbols) ∧
      run'.ok = (run.ok && r.ok) ∧
      run'.cells = run.cells.push { c with value := if r.ok then r.value else c.value } ∧
      run'.own = run.own.map fun ws => if r.ok then ws.set run.cells.size r.value else ws := by
  unfold CellRun.add at h
  split at h
  next hn =>
    obtain rfl := Except.ok.inj h
    exact .inl ⟨hn, rfl⟩
  next x hx =>
    obtain ⟨⟨r, u⟩, hr, h⟩ := bind_eq_ok.mp h
    obtain rfl := pure_eq_ok.mp h
    refine .inr ⟨x, r, hx, hr, rfl, ?_, rfl⟩
    cases r.ok <;> rfl

theorem CellRun.add_evaluated {run run' : CellRun} {c : Cell} (hs : s.Marked run.symbols)
    (hc : ∀ c' ∈ run.cells, c'.IsEvaluated v s p) (h : run.add v p c = .ok run') :
    s.Marked run'.symbols ∧ ∀ c' ∈ run'.cells, c'.IsEvaluated v s p := by
  rcases CellRun.add_cases h with ⟨hn, rfl⟩ | ⟨x, r, hx, hr, -, hcells, -⟩
  · refine ⟨hs, fun c' hc' => ?_⟩
    rcases Array.mem_push.mp hc' with hm | rfl
    · exact hc c' hm
    · intro x hx
      simp [hn] at hx
  · refine ⟨hs.trans (Session.eval_marked hr), fun c' hc' => ?_⟩
    rw [hcells] at hc'
    rcases Array.mem_push.mp hc' with hm | rfl
    · exact hc c' hm
    · intro y hy
      obtain rfl : x = y := Option.some.inj (hx.symm.trans hy)
      exact ⟨run.symbols, r.ok, hs, r, (Session.eval_eq_ok.mp hr).1, rfl, fun hok => if_pos hok⟩

/-- The body after an entry has been brought up to date. -/
def Body.IsEvaluated (v : Session) (s : SymbolTable) (p : Position) (long : Bool) : Body → Prop
  | .data cells => ∀ c ∈ cells, c.IsEvaluated v s p
  | .instruction i => i.IsEvaluated v s p long
  | _ => False

theorem Entry.checked_eq (e : Entry) (ok : Bool) :
    e.checked ok = { e with fault := (e.checked ok).fault } := by
  unfold checked
  split <;> rfl

/-- Only the body, the words and the fault of an entry change when it is brought up to date. -/
theorem Entry.refresh_cases {e new : Entry} {long : Bool} (hv : e.body.isVariable = true)
    (h : e.refresh v s long = .ok (new, t)) :
    new = { e with body := new.body, own := new.own, fault := new.fault } ∧
      new.body.IsEvaluated v s e.position long ∧ s.Marked t := by
  unfold refresh at h
  split at h
  next cells _ =>
    obtain ⟨run, hr, h⟩ := bind_eq_ok.mp h
    obtain ⟨rfl, rfl⟩ := Prod.mk.inj (pure_eq_ok.mp h)
    have hc := foldlM_keeps
      (P := fun run : CellRun => s.Marked run.symbols ∧
        ∀ c ∈ run.cells, c.IsEvaluated v s e.position)
      (fun _ _ _ hp ha => CellRun.add_evaluated hp.1 hp.2 ha) ⟨.refl s, by simp⟩ hr
    rw [checked_eq]
    refine ⟨rfl, ?_, hc.1⟩
    intro c hm
    exact hc.2 c (Array.mem_toList_iff.mp hm)
  next i _ =>
    obtain ⟨⟨i', ok, u⟩, hr, h⟩ := bind_eq_ok.mp h
    obtain ⟨rfl, rfl⟩ := Prod.mk.inj (pure_eq_ok.mp h)
    obtain ⟨hi, hm⟩ := Instruction.refresh_evaluated hr
    rw [checked_eq]
    exact ⟨rfl, hi, hm⟩
  next hd hi =>
    cases hb : e.body with
    | data cells => exact absurd hb (hd cells)
    | instruction i => exact absurd hb (hi i)
    | _ => simp [hb, Body.isVariable] at hv

theorem CellRun.add_own_length {run run' : CellRun} {c : Cell} (h : run.add v p c = .ok run') :
    run'.own.map List.length = run.own.map List.length := by
  rcases CellRun.add_cases h with ⟨-, rfl⟩ | ⟨x, r, -, -, -, -, hown⟩
  · rfl
  · rw [hown, Option.map_map]
    congr 1
    funext ws
    cases r.ok <;> simp

/-- Words of an entry's own have their number as long as they are kept, and an instruction does not
keep them. -/
theorem Entry.refresh_own {e new : Entry} {long : Bool} (hv : e.body.isVariable = true)
    (h : e.refresh v s long = .ok (new, t)) :
    new.own = none ∨ (∀ i, new.body ≠ .instruction i) ∧
      new.own.map List.length = e.own.map List.length := by
  unfold refresh at h
  split at h
  next cells _ =>
    obtain ⟨run, hr, h⟩ := bind_eq_ok.mp h
    obtain ⟨rfl, -⟩ := Prod.mk.inj (pure_eq_ok.mp h)
    have hown := foldlM_keeps
      (P := fun run : CellRun => run.own.map List.length = e.own.map List.length)
      (fun _ _ _ hp ha => (CellRun.add_own_length ha).trans hp) rfl hr
    rw [checked_eq]
    exact .inr ⟨by simp, hown⟩
  next i _ =>
    obtain ⟨⟨i', ok, u⟩, hr, h⟩ := bind_eq_ok.mp h
    obtain ⟨rfl, -⟩ := Prod.mk.inj (pure_eq_ok.mp h)
    rw [checked_eq]
    exact .inl rfl
  next hd hi =>
    cases hb : e.body with
    | data cells => exact absurd hb (hd cells)
    | instruction i => exact absurd hb (hi i)
    | _ => simp [hb, Body.isVariable] at hv

/-- The words so far have been evaluated where their cells have expressions. -/
def CellRun.Shows (v : Session) (s : SymbolTable) (p : Position) (run : CellRun) : Prop :=
  ∀ (ws : List Word), run.own = some ws → ∀ (j : Nat) (c : Cell) (x : Text) (w : Word),
    run.cells[j]? = some c → c.deferred = some x → ws[j]? = some w →
      ∃ u ok, s.Marked u ∧ Evaluated v u p x w ok

theorem CellRun.add_shows {run run' : CellRun} {c : Cell} (hs : s.Marked run.symbols)
    (hr : run.Shows v s p) (h : run.add v p c = .ok run') : run'.Shows v s p := by
  intro ws hws j d x w hd hx hw
  rcases CellRun.add_cases h with ⟨hn, rfl⟩ | ⟨y, r, hy, he, -, hcells, hown⟩
  · rw [Array.getElem?_push] at hd
    split at hd
    · obtain rfl := Option.some.inj hd
      simp [hn] at hx
    · exact hr ws hws j d x w hd hx hw
  · obtain ⟨old, hold, rfl⟩ := Option.map_eq_some_iff.mp (hown.symm.trans hws)
    rw [hcells, Array.getElem?_push] at hd
    split at hd
    next hj =>
      obtain rfl := Option.some.inj hd
      obtain rfl : y = x := Option.some.inj (hy.symm.trans hx)
      refine ⟨run.symbols, r.ok, hs, r, (Session.eval_eq_ok.mp he).1, rfl, fun hok => ?_⟩
      rw [if_pos hok, hj, List.getElem?_set_self'] at hw
      obtain ⟨-, -, rfl⟩ := Option.map_eq_some_iff.mp hw
      rfl
    next hj =>
      refine hr old hold j d x w hd hx ?_
      split at hw
      · rwa [List.getElem?_set_ne (Ne.symm hj)] at hw
      · exact hw

/-- The words of an entry as they come out of an evaluation: those of the code of an instruction,
and the values of the expressions of data. -/
def Entry.ShowsValues (v : Session) (s : SymbolTable) (e : Entry) : Prop :=
  match e.body with
  | .data cells => ∀ (j : Nat) (c : Cell) (x : Text) (w : Word), cells[j]? = some c →
      c.deferred = some x → e.output[j]? = some w →
        ∃ u ok, s.Marked u ∧ Evaluated v u e.position x w ok
  | .instruction i => e.output = i.encode
  | _ => True

theorem Entry.refresh_showsValues {e new : Entry} {long : Bool}
    (h : e.refresh v s long = .ok (new, t)) : new.ShowsValues v s := by
  unfold refresh at h
  split at h
  next cells _ =>
    obtain ⟨run, hr, h⟩ := bind_eq_ok.mp h
    obtain ⟨rfl, rfl⟩ := Prod.mk.inj (pure_eq_ok.mp h)
    have hrun := foldlM_keeps
      (P := fun run : CellRun => (s.Marked run.symbols ∧
        ∀ c ∈ run.cells, c.IsEvaluated v s e.position) ∧ run.Shows v s e.position)
      (fun _ _ _ hp ha =>
        ⟨CellRun.add_evaluated hp.1.1 hp.1.2 ha, CellRun.add_shows hp.1.1 hp.2 ha⟩)
      ⟨⟨.refl s, by simp⟩, by simp [CellRun.Shows]⟩ hr
    rw [checked_eq]
    intro j c x w hc hx hw
    have hc : run.cells[j]? = some c := by simpa using hc
    cases hown : run.own with
    | some ws =>
      rw [output] at hw
      exact hrun.2 ws hown j c x w hc hx (by simpa [hown] using hw)
    | none =>
      have hval : c.value = w := by simpa [output, hown, Body.output, hc] using hw
      obtain ⟨u, ok, hu, hev⟩ := hrun.1.2 c (Array.mem_of_getElem? hc) x hx
      exact ⟨u, ok, hu, hval ▸ hev⟩
  next i _ =>
    obtain ⟨⟨i', ok, u⟩, hr, h⟩ := bind_eq_ok.mp h
    obtain ⟨rfl, rfl⟩ := Prod.mk.inj (pure_eq_ok.mp h)
    rw [checked_eq]
    exact output_of_own rfl
  next hd hi =>
    obtain ⟨rfl, -⟩ := Prod.mk.inj (Except.ok.inj h)
    unfold ShowsValues
    split
    next cells hb => exact absurd hb (hd cells)
    next i hb => exact absurd hb (hi i)
    next => trivial

theorem Body.IsEvaluated.isVariable {b : Body} {long : Bool} (h : b.IsEvaluated v s p long) :
    b.isVariable = true := by
  cases b with
  | data cells => rfl
  | instruction i => rfl
  | _ => exact h.elim

end Dcpu
