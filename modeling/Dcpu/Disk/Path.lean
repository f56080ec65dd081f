import Dcpu.Text.Basic

/-! File paths: components are separated by slashes. -/
namespace Dcpu.Path

def isAbsolute (p : Text) : Bool := p.head? = some '/'

/-- The path of `name` seen from a directory. -/
def join (dir name : Text) : Text :=
  if isAbsolute name || dir.isEmpty then name
  else if dir.getLast? = some '/' then dir ++ name
  else dir ++ '/' :: name

/-- Drops components from the end that say nothing: empty ones and `.`, but not the first one. -/
def dropIdle (reversed : List Text) : List Text :=
  match reversed with
  | c :: d :: rest => if c = [] ∨ c = ['.'] then dropIdle (d :: rest) else reversed
  | _ => reversed

/-- The path from components in reverse order. -/
def ofReversed : List Text → Text
  | [[]] => ['/']
  | reversed => Text.joinWith ['/'] reversed.reverse

/-- The components in reverse order, without idle ones at the end. -/
def reversed (p : Text) : List Text := dropIdle (Text.splitOn '/' p).reverse

/-- The path without its last component. -/
def parent? (p : Text) : Option Text :=
  match reversed p with
  | [] | [[]] => none
  | [_] => some []
  | _ :: rest => some (ofReversed (dropIdle rest))

/-- The last component, if it is a name. -/
def fileName? (p : Text) : Option Text :=
  match reversed p with
  | c :: _ => if c = [] ∨ c = ['.'] ∨ c = ['.', '.'] then none else some c
  | [] => none

/-- The file name without its extension. A dot at the start belongs to the name. -/
def stem? (p : Text) : Option Text :=
  (fileName? p).map fun name =>
    match (Text.splitOn '.' name).dropLast with
    | [] | [[]] => name
    | pieces => Text.joinWith ['.'] pieces

end Dcpu.Path
