import Dcpu.Disk.Tree
import Dcpu.Expr.Eval
import Dcpu.Grammar.Standard
import Dcpu.Settings

/-! What an assembly starts from, and evaluation in the course of it. -/
namespace Dcpu

/-- `symbols` are the names that are defined beforehand. -/
structure Job where
  disk : Disk
  settings : Settings := {}
  grammar : Grammar := .standard
  hooks : Hooks := {}
  symbols : SymbolTable := {}

/-- A job together with the meaning of instructions in braces. -/
structure Session extends Job where
  literal : Text → Except Abort (Option Word)

namespace Session

/-- The value of an expression; all names in it are referenced from now on. -/
def eval (v : Session) (s : SymbolTable) (p : Position) (e : Text) :
    Except Abort (Result × SymbolTable) := do
  let r ← Expr.eval ⟨s, v.hooks, p, v.literal⟩ e
  return (r, s.markReferenced r.references)

/-- The value of an expression where it is needed at once. -/
def immediate (v : Session) (s : SymbolTable) (p : Position) (e : Text) :
    Except Abort (Except Fault Word × SymbolTable) := do
  let (r, s) ← v.eval s p e
  return (if r.ok then .ok r.value else .error (r.fault s), s)

end Session

end Dcpu
