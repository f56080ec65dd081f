import Dcpu.Symbol.Table

/-! What an expression evaluates to. -/
namespace Dcpu

/-- `value` is also kept for a failed evaluation. `references` are the names that were looked up,
found or not. `relocatable` says that the value comes from an address and can move. -/
structure Result where
  value : Word := 0
  ok : Bool := false
  references : NameSet := []
  relocatable : Bool := false
  deriving DecidableEq, Repr

namespace Result

def failed : Result := {}

def ofWord (w : Word) : Result := { value := w, ok := true }

def ofWord? (w : Option Word) : Result := (w.map ofWord).getD failed

def address? (w : Option Word) : Result := { ofWord? w with relocatable := true }

def resolved? (r : Result) : Option Word := if r.ok then some r.value else none

def mapValue (f : Word → Word) (r : Result) : Result := { r with value := f r.value }

/-- Adds the references of another result, and its being relocatable. -/
def absorb (r other : Result) : Result :=
  { r with
    references := NameSet.union r.references other.references
    relocatable := r.relocatable || other.relocatable }

/-- Some name that was looked up is neither an equate nor a label. -/
def hasUndefined (r : Result) (s : SymbolTable) : Bool := r.references.any fun n => !s.isDefined n

/-- The fault of a failed evaluation. -/
def fault (r : Result) (s : SymbolTable) : Fault :=
  if r.hasUndefined s then .undefinedReference else .illegalExpression

end Result

end Dcpu
