import Dcpu.Listing.Entry
import Dcpu.Symbol.Table

/-! Hooks: line handlers and values that a host adds to the assembler, and functions that
expressions can call. -/
namespace Dcpu

/-- Where a line stands when a handler sees it. -/
structure LineContext where
  file : Text
  line : Nat
  address : Word
  deriving DecidableEq, Repr

/-- `claim` takes a line in place of the standard handling, with an entry that may come from another
assembly and may have words of its own; `value` gives a meaning to a token before it is read as a
literal or a name. -/
structure Plugin where
  name : Text
  claim : LineContext → Text → Option Entry := fun _ _ => none
  value : Text → Option Word := fun _ => none

/-- A function gets the text between its parentheses. -/
abbrev Function := Text → SymbolTable → Option Word

namespace Function

/-- Whether a name has been looked up. -/
def isReferenced : Function := fun name s => some (Word.ofBool (s.isReferenced name))

end Function

/-- The functions are keyed by their names in lower case, the newest first. -/
structure Hooks where
  plugins : List Plugin := []
  functions : List (Text × Function) := [("isref".toList, Function.isReferenced)]

namespace Hooks

def addFunction (h : Hooks) (name : Text) (f : Function) : Hooks :=
  { h with functions := (Text.lower name, f) :: h.functions }

def function? (h : Hooks) (name : Text) : Option Function := h.functions.lookup (Text.lower name)

def value? (h : Hooks) (token : Text) : Option Word := h.plugins.findSome? fun p => p.value token

/-- The entry of the first plugin that takes the line, with the plugin's name. -/
def claim? (h : Hooks) (c : LineContext) (line : Text) : Option (Text × Entry) :=
  h.plugins.findSome? fun p => (p.claim c line).map fun e => (p.name, e)

end Hooks

/-- What a plugin was told about: a line that it took, or the end of an assembly with its number of
entries and of words. -/
inductive Event where
  | claimed (plugin line : Text) (context : LineContext)
  | completed (plugin : Text) (entries words : Nat)
  deriving DecidableEq, Repr

end Dcpu
