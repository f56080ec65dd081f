import Dcpu.Diagnostic
import Dcpu.Symbol.Name
import Dcpu.Text.Quote

/-! Macros: a name, parameters and lines in which calls put their arguments. -/
namespace Dcpu

structure Template where
  name : Text
  params : List Text
  body : List Text
  deriving DecidableEq, Repr

namespace Template

/-- Puts the arguments in the place of the parameters, one parameter after the other, wherever
their text occurs. -/
def expand (m : Template) (args : List Text) : List Text :=
  m.body.map fun line =>
    (m.params.zip args).foldl (fun t (param, arg) => Text.replaceAll param (Text.trim arg) t) line

def isParam : Text → Bool
  | [] => false
  | c :: t => c.isAlpha && t.all fun c => c.isAlphanum || c == '_'

/-- The parameters between the parentheses of a header. -/
def params? (inner : Text) : Option (List Text) :=
  if (Text.trim inner).isEmpty then some []
  else
    let params := (Text.splitOn ',' inner).map Text.trim
    if params.all isParam then some params else none

/-- Reads `name(a, b)` or `name`, with or without an opening brace at the end. -/
def header? (t : Text) : Option (Text × List Text) :=
  let t := Text.trim t
  let t := Text.trim ((Text.dropLast? '{' t).getD t)
  match t.span (· != '(') with
  | (name, []) => if Name.isValid name then some (name, []) else none
  | (name, _ :: rest) => do
    let inner ← Text.dropLast? ')' rest
    let name := Text.trim name
    if Name.isValid name then
      let params ← params? inner
      return (name, params)
    else none

/-- Reads a call `name(args)`. -/
def call? (t : Text) : Option (Text × List Text) := do
  let (name, rest) ← Text.cutAt '(' t
  let inner ← Text.dropLast? ')' (Text.trimEnd rest)
  let name := Text.trim name
  if Name.isValid name then
    return (name, if (Text.trim inner).isEmpty then [] else Text.splitFree ',' inner)
  else none

/-- The template that a call means: the first with its name and number of arguments. -/
def find? (ms : List Template) (name : Text) (args : List Text) : Option Template :=
  ms.find? fun m => Text.sameFolded m.name name && m.params.length == args.length

end Template

end Dcpu
