import Dcpu.Proofs.Refresh

/-! What an entry keeps when it is brought up to date, and what its expressions come to: a fault if
one of them has no value, an abort if one of them has no answer. -/
namespace Dcpu
open Answer

variable {v : Session} {s t u : SymbolTable} {p : Position} {ok ok' : Bool}

section Skeleton

/-- An operand without the value that its literal has at the moment. -/
def Operand.skeleton (o : Operand) : Operand :=
  { o with literal := o.literal.map fun l => { l with value := 0 } }

def Instruction.skeleton (i : Instruction) : Instruction :=
  { i with a := i.a.skeleton, b := i.b.map Operand.skeleton, packed := false }

def Cell.skeleton (c : Cell) : Cell := { c with value := 0 }

/-- A body without what passes compute. -/
def Body.skeleton : Body → Body
  | .data cells => .data (cells.map Cell.skeleton)
  | .instruction i => .instruction i.skeleton
  | b => b

/-- An entry without what passes compute and move. -/
def Entry.skeleton (e : Entry) : Entry :=
  { e with address := 0, fault := none, body := e.body.skeleton, own := none }

theorem Operand.refresh_skeleton {o o' : Operand} (h : o.refresh v s p = .ok (o', ok, t)) :
    o'.skeleton = o.skeleton := by
  rcases Operand.refresh_cases h with ⟨-, rfl, -, -⟩ | ⟨l, r, hl, -, -, rfl⟩
  · rfl
  · simp [skeleton, hl]

theorem Instruction.refresh_skeleton {i i' : Instruction} {long : Bool}
    (h : i.refresh v s p long = .ok (i', ok, t)) : i'.skeleton = i.skeleton := by
  obtain ⟨a, okA, u, ha, ⟨-, -, -, rfl⟩ | ⟨b, b', okB, hb, hb', -, rfl⟩⟩ :=
    Instruction.refresh_cases h
  · simp [skeleton, pack, Operand.refresh_skeleton ha]
  · simp [skeleton, pack, Operand.refresh_skeleton ha, hb, Operand.refresh_skeleton hb']

/-- The cells that come out of a run have the expressions of those that went in. -/
theorem CellRun.foldlM_skeleton {cells : List Cell} {run run' : CellRun}
    (h : cells.foldlM (CellRun.add v p) run = .ok run') :
    run'.cells.toList.map Cell.skeleton =
      run.cells.toList.map Cell.skeleton ++ cells.map Cell.skeleton := by
  induction cells generalizing run with
  | nil =>
    obtain rfl := pure_eq_ok.mp h
    simp
  | cons c cells ih =>
    obtain ⟨next, hn, h⟩ := bind_eq_ok.mp h
    have hc : next.cells.toList.map Cell.skeleton =
        run.cells.toList.map Cell.skeleton ++ [c.skeleton] := by
      rcases CellRun.add_cases hn with ⟨-, rfl⟩ | ⟨x, r, -, -, -, hcells, -⟩
      · simp
      · simp [hcells, Cell.skeleton]
    rw [ih h, hc]
    simp

/-- Only values, the form of literals and the fault can change. -/
theorem Entry.refresh_skeleton {e new : Entry} {long : Bool}
    (h : e.refresh v s long = .ok (new, t)) : new.skeleton = e.skeleton := by
  unfold refresh at h
  split at h
  next cells hb =>
    obtain ⟨run, hr, h⟩ := bind_eq_ok.mp h
    obtain ⟨rfl, -⟩ := Prod.mk.inj (pure_eq_ok.mp h)
    have hc := CellRun.foldlM_skeleton hr
    rw [checked_eq]
    simp_all [skeleton, Body.skeleton]
  next i hb =>
    obtain ⟨⟨i', ok, u⟩, hr, h⟩ := bind_eq_ok.mp h
    obtain ⟨rfl, -⟩ := Prod.mk.inj (pure_eq_ok.mp h)
    rw [checked_eq]
    simp [skeleton, Body.skeleton, hb, Instruction.refresh_skeleton hr]
  next =>
    obtain ⟨rfl, -⟩ := Prod.mk.inj (Except.ok.inj h)
    rfl

end Skeleton

section Texts

def Operand.texts (o : Operand) : List Text := o.literal.toList.map Literal.text

/-- The expressions of a body in the order in which they are evaluated. -/
def Body.texts : Body → List Text
  | .data cells => cells.filterMap Cell.deferred
  | .instruction i => i.a.texts ++ i.b.toList.flatMap Operand.texts
  | _ => []

theorem Operand.texts_skeleton (o : Operand) : o.skeleton.texts = o.texts := by
  cases h : o.literal <;> simp [texts, skeleton, h]

theorem Body.texts_skeleton (b : Body) : b.skeleton.texts = b.texts := by
  cases b with
  | data cells =>
    have hc : Cell.deferred ∘ Cell.skeleton = Cell.deferred := rfl
    simp only [texts, skeleton, List.filterMap_map]
    rw [hc]
  | instruction i =>
    cases h : i.b <;>
      simp [texts, skeleton, Instruction.skeleton, Operand.texts_skeleton, h]
  | _ => rfl

theorem Entry.texts_of_skeleton {e f : Entry} (h : e.skeleton = f.skeleton) :
    e.body.texts = f.body.texts := by
  have hb : e.body.skeleton = f.body.skeleton := congrArg Entry.body h
  rw [← Body.texts_skeleton, hb, Body.texts_skeleton]

end Texts

section Outcome

/-- The text has been evaluated against the symbols, up to marks set on the way. -/
def Answers (v : Session) (s : SymbolTable) (p : Position) (text : Text) (ok : Bool) : Prop :=
  ∃ u r, s.Marked u ∧ Expr.eval (v.context u p) text = .ok r ∧ r.ok = ok

theorem Answers.of_marked {text : Text} (h : Answers v u p text ok) (hs : s.Marked u) :
    Answers v s p text ok := by
  obtain ⟨w, r, hw, hr⟩ := h
  exact ⟨w, r, hs.trans hw, hr⟩

/-- All of the texts have values, or one of them has none. -/
structure Outcome (v : Session) (s : SymbolTable) (p : Position) (texts : List Text) (ok : Bool) :
    Prop where
  good : ok = true → ∀ x ∈ texts, Answers v s p x true
  bad : ok = false → ∃ x ∈ texts, Answers v s p x false

theorem Outcome.nil (v : Session) (s : SymbolTable) (p : Position) : Outcome v s p [] true :=
  ⟨fun _ _ hx => absurd hx List.not_mem_nil, nofun⟩

theorem Outcome.single {text : Text} (h : Answers v s p text ok) : Outcome v s p [text] ok := by
  constructor
  · intro hok x hx
    obtain rfl := List.mem_singleton.mp hx
    rwa [hok] at h
  · intro hok
    rw [hok] at h
    exact ⟨text, List.mem_singleton_self text, h⟩

theorem Outcome.append {xs ys : List Text} (hx : Outcome v s p xs ok) (hs : s.Marked u)
    (hy : Outcome v u p ys ok') : Outcome v s p (xs ++ ys) (ok && ok') := by
  constructor
  · intro hok x hm
    obtain ⟨ha, hb⟩ := Bool.and_eq_true_iff.mp hok
    rcases List.mem_append.mp hm with hm | hm
    · exact hx.good ha x hm
    · exact (hy.good hb x hm).of_marked hs
  · intro hok
    rcases Bool.and_eq_false_iff.mp hok with ha | hb
    · obtain ⟨x, hm, hf⟩ := hx.bad ha
      exact ⟨x, List.mem_append_left ys hm, hf⟩
    · obtain ⟨x, hm, hf⟩ := hy.bad hb
      exact ⟨x, List.mem_append_right xs hm, hf.of_marked hs⟩

theorem Session.eval_answers {r : Result} {text : Text} (h : v.eval s p text = .ok (r, t)) :
    Answers v s p text r.ok :=
  ⟨s, r, .refl s, (Session.eval_eq_ok.mp h).1, rfl⟩

theorem Operand.refresh_outcome {o o' : Operand} (h : o.refresh v s p = .ok (o', ok, t)) :
    Outcome v s p o.texts ok := by
  rcases Operand.refresh_cases h with ⟨hn, -, rfl, -⟩ | ⟨l, r, hl, he, rfl, -⟩
  · simpa [texts, hn] using Outcome.nil v s p
  · simpa [texts, hl] using Outcome.single (Session.eval_answers he)

theorem Instruction.refresh_outcome {i i' : Instruction} {long : Bool}
    (h : i.refresh v s p long = .ok (i', ok, t)) :
    Outcome v s p (Body.instruction i).texts ok := by
  obtain ⟨a, okA, u, ha, ⟨hn, rfl, -, -⟩ | ⟨b, b', okB, hb, hb', rfl, -⟩⟩ :=
    Instruction.refresh_cases h
  · simpa [Body.texts, hn] using Operand.refresh_outcome ha
  · have hoa := Operand.refresh_outcome ha
    have hob := Operand.refresh_outcome hb'
    simpa [Body.texts, hb] using hoa.append (Operand.refresh_evaluated ha).2 hob

theorem CellRun.add_outcome {run run' : CellRun} {c : Cell} (h : run.add v p c = .ok run') :
    run.symbols.Marked run'.symbols ∧ ∃ ok, Outcome v run.symbols p c.deferred.toList ok ∧
      run'.ok = (run.ok && ok) := by
  rcases CellRun.add_cases h with ⟨hn, rfl⟩ | ⟨x, r, hx, he, hok, -, -⟩
  · exact ⟨.refl _, true, by simpa [hn] using Outcome.nil v run.symbols p, by simp⟩
  · refine ⟨Session.eval_marked he, r.ok, ?_, hok⟩
    simpa [hx] using Outcome.single (Session.eval_answers he)

theorem CellRun.foldlM_outcome {cells : List Cell} {run run' : CellRun}
    (h : cells.foldlM (CellRun.add v p) run = .ok run') :
    ∃ ok, Outcome v run.symbols p (cells.filterMap Cell.deferred) ok ∧
      run'.ok = (run.ok && ok) := by
  induction cells generalizing run with
  | nil =>
    obtain rfl := pure_eq_ok.mp h
    exact ⟨true, Outcome.nil .., by simp⟩
  | cons c cells ih =>
    obtain ⟨next, hn, h⟩ := bind_eq_ok.mp h
    obtain ⟨hm, ok, ho, hok⟩ := CellRun.add_outcome hn
    obtain ⟨ok', ho', hok'⟩ := ih h
    refine ⟨ok && ok', ?_, by rw [hok', hok, Bool.and_assoc]⟩
    have ha := ho.append hm ho'
    cases hc : c.deferred <;> simpa [hc] using ha

/-- A fault is recorded exactly if some expression of the entry has no value. -/
theorem Entry.refresh_outcome {e new : Entry} {long : Bool}
    (h : e.refresh v s long = .ok (new, t)) :
    ∃ ok, Outcome v s e.position e.body.texts ok ∧ new.fault = (e.checked ok).fault := by
  unfold refresh at h
  split at h
  next cells hb =>
    obtain ⟨run, hr, h⟩ := bind_eq_ok.mp h
    obtain ⟨rfl, -⟩ := Prod.mk.inj (pure_eq_ok.mp h)
    obtain ⟨ok, ho, hok⟩ := CellRun.foldlM_outcome hr
    refine ⟨ok, by simpa [hb, Body.texts] using ho, ?_⟩
    have hrun : run.ok = ok := by simpa using hok
    rw [hrun]
    cases ok <;> rfl
  next i hb =>
    obtain ⟨⟨i', ok, u⟩, hr, h⟩ := bind_eq_ok.mp h
    obtain ⟨rfl, -⟩ := Prod.mk.inj (pure_eq_ok.mp h)
    refine ⟨ok, by simpa [hb] using Instruction.refresh_outcome hr, ?_⟩
    cases ok <;> rfl
  next hd hi =>
    obtain ⟨rfl, -⟩ := Prod.mk.inj (Except.ok.inj h)
    refine ⟨true, ?_, rfl⟩
    have hn : e.body.texts = [] := by
      unfold Body.texts
      split
      next cells hb => exact absurd hb (hd cells)
      next i hb => exact absurd hb (hi i)
      next => rfl
    rw [hn]
    exact Outcome.nil ..

/-- Where no fault is recorded, all expressions have values. -/
theorem Entry.answers_of_refresh {e new : Entry} {long : Bool}
    (h : e.refresh v s long = .ok (new, t)) (hf : new.fault = none) :
    ∀ x ∈ new.body.texts, Answers v s e.position x true := by
  obtain ⟨ok, ho, hok⟩ := Entry.refresh_outcome h
  rw [Entry.texts_of_skeleton (Entry.refresh_skeleton h)]
  apply ho.good
  cases ok with
  | true => rfl
  | false =>
    rw [hok] at hf
    simp [checked, addFault] at hf

end Outcome

end Dcpu
