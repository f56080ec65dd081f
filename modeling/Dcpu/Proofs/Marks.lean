import Dcpu.Assembly.Layout
import Dcpu.Assembly.Line
import Dcpu.Proofs.Answer

/-! Evaluation changes nothing in the symbol table but the set of referenced names. -/
namespace Dcpu

/-- Some further names are referenced; the bindings are the same. -/
def SymbolTable.Marked (s t : SymbolTable) : Prop := ∃ names, t = s.markReferenced names

namespace SymbolTable.Marked

variable {s t u : SymbolTable}

theorem refl (s : SymbolTable) : s.Marked s := ⟨[], rfl⟩

theorem trans (h : s.Marked t) (h' : t.Marked u) : s.Marked u := by
  obtain ⟨names, rfl⟩ := h
  obtain ⟨more, rfl⟩ := h'
  refine ⟨names ++ more, ?_⟩
  simp only [markReferenced, NameSet.union, List.map_append, List.foldl_append]

theorem eq_with (h : s.Marked t) : t = { s with referenced := t.referenced } := by
  obtain ⟨names, rfl⟩ := h
  rfl

end SymbolTable.Marked

open Answer

namespace Session

/-- What an expression sees that is evaluated in a table and at a position. -/
abbrev context (v : Session) (s : SymbolTable) (p : Position) : Expr.Context :=
  ⟨s, v.hooks, p, v.literal⟩

theorem eval_eq_ok {v : Session} {s t : SymbolTable} {p : Position} {e : Text} {r : Result} :
    v.eval s p e = .ok (r, t) ↔
      Expr.eval (v.context s p) e = .ok r ∧ t = s.markReferenced r.references := by
  unfold eval
  rw [bind_eq_ok]
  constructor
  · rintro ⟨r', hr, h⟩
    obtain ⟨rfl, rfl⟩ := Prod.mk.inj (pure_eq_ok.mp h)
    exact ⟨hr, rfl⟩
  · rintro ⟨hr, rfl⟩
    exact ⟨r, hr, rfl⟩

variable {v : Session} {s t : SymbolTable} {p : Position} {e : Text}

theorem eval_marked {r : Result} (h : v.eval s p e = .ok (r, t)) : s.Marked t :=
  ⟨_, (eval_eq_ok.mp h).2⟩

theorem immediate_eq_ok {value : Except Fault Word} (h : v.immediate s p e = .ok (value, t)) :
    ∃ r, v.eval s p e = .ok (r, t) ∧
      value = if r.ok then .ok r.value else .error (r.fault t) := by
  obtain ⟨⟨r, t'⟩, hr, h⟩ := bind_eq_ok.mp h
  obtain ⟨rfl, rfl⟩ := Prod.mk.inj (pure_eq_ok.mp h)
  exact ⟨r, hr, rfl⟩

theorem immediate_marked {value : Except Fault Word} (h : v.immediate s p e = .ok (value, t)) :
    s.Marked t := by
  obtain ⟨r, hr, -⟩ := immediate_eq_ok h
  exact eval_marked hr

end Session

section FirstPass

variable {v : Session} {s t : SymbolTable} {p : Position}

theorem condition_marked {e : Entry} {args : Text} {value : Except Fault Bool}
    (h : condition v s e args = .ok (value, t)) : s.Marked t := by
  unfold condition at h
  split at h
  · obtain ⟨-, rfl⟩ := Prod.mk.inj (Except.ok.inj h)
    exact .refl _
  · obtain ⟨⟨w, t'⟩, hw, h⟩ := bind_eq_ok.mp h
    obtain ⟨-, rfl⟩ := Prod.mk.inj (pure_eq_ok.mp h)
    exact Session.immediate_marked hw

theorem DataRun.add_marked {run run' : DataRun} {item : Datum}
    (h : run.add v p item = .ok run') : run.symbols.Marked run'.symbols := by
  cases item with
  | string x =>
    obtain rfl := Except.ok.inj h
    exact .refl _
  | expr x =>
    obtain ⟨⟨r, t'⟩, hr, h⟩ := bind_eq_ok.mp h
    obtain rfl := pure_eq_ok.mp h
    exact Session.eval_marked hr
  | bad =>
    obtain rfl := Except.ok.inj h
    exact .refl _

theorem dataCells_marked {items : List Datum} {run : DataRun}
    (h : dataCells v s p items = .ok run) : s.Marked run.symbols :=
  foldlM_keeps (P := fun run : DataRun => s.Marked run.symbols)
    (fun _ _ _ hm hs => hm.trans (DataRun.add_marked hs)) (.refl s) h

theorem echoText_marked {items : List Datum} {message : Text} {ok : Bool}
    (h : Draft.echoText v p items s = .ok (message, ok, t)) : s.Marked t := by
  refine foldlM_keeps (P := fun run : Text × Bool × SymbolTable => s.Marked run.2.2) ?_ (.refl s) h
  rintro ⟨m, o, u⟩ item run hm hs
  cases item with
  | string x =>
    obtain rfl := Except.ok.inj hs
    exact hm
  | expr x =>
    obtain ⟨⟨r, u'⟩, hr, hs⟩ := bind_eq_ok.mp hs
    have hu := hm.trans (Session.eval_marked hr)
    dsimp only at hs
    split at hs
    · obtain rfl := pure_eq_ok.mp hs
      exact hu
    · obtain rfl := pure_eq_ok.mp hs
      exact hu
  | bad =>
    obtain rfl := Except.ok.inj hs
    exact hm

theorem Operand.ofMatch_marked {m : Match} {o : Operand} {ok : Bool}
    (h : Operand.ofMatch v s p m = .ok (o, ok, t)) : s.Marked t := by
  unfold Operand.ofMatch at h
  split at h
  · obtain ⟨-, -, rfl⟩ : _ ∧ _ ∧ s = t := by simpa using h
    exact .refl _
  · obtain ⟨⟨r, t'⟩, hr, h⟩ := bind_eq_ok.mp h
    obtain ⟨-, -, rfl⟩ : _ ∧ _ ∧ t' = t := by simpa using pure_eq_ok.mp h
    exact Session.eval_marked hr

theorem Operand.ofMatch?_marked {m : Option Match} {o : Option Operand}
    (h : Operand.ofMatch? v s p m = .ok (o, t)) : s.Marked t := by
  cases m with
  | none =>
    obtain ⟨-, rfl⟩ := Prod.mk.inj (Except.ok.inj h)
    exact .refl _
  | some m =>
    obtain ⟨⟨o', ok, t'⟩, ho, h⟩ := bind_eq_ok.mp h
    obtain ⟨-, rfl⟩ := Prod.mk.inj (pure_eq_ok.mp h)
    exact Operand.ofMatch_marked ho

end FirstPass

end Dcpu
