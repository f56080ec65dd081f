import Dcpu.Text.Numeral

/-! JSON values and their indented text. -/
namespace Dcpu

/-- Natural numbers are told apart from other numbers, of which only the text is kept. A string with
an unpaired surrogate, and an object with such a name of a field, is broken: it can be passed over
but not used. Objects keep the order of their fields, and repeated ones. -/
inductive Json where
  | null
  | bool (b : Bool)
  | natural (n : Nat)
  | number (text : Text)
  | string (t : Text)
  | broken
  | array (items : List Json)
  | object (fields : List (Text × Json))

namespace Json

/-- Control characters, quotes and backslashes are escaped. -/
def escape (c : Char) : Text :=
  match c with
  | '"' => ['\\', '"']
  | '\\' => ['\\', '\\']
  | '\x08' => ['\\', 'b']
  | '\x0c' => ['\\', 'f']
  | '\n' => ['\\', 'n']
  | '\r' => ['\\', 'r']
  | '\t' => ['\\', 't']
  | c =>
    if c.toNat < 0x20 then
      '\\' :: 'u' :: (Nat.toDigits 16 c.toNat).leftpad 4 '0'
    else [c]

def quote (t : Text) : Text := '"' :: t.flatMap escape ++ ['"']

/-- Line break and indentation. -/
def newline (depth : Nat) : Text := '\n' :: List.replicate (2 * depth) ' '

/-- A list of parts between brackets, each on a line of its own. -/
def bracket (depth : Nat) (opening closing : Char) (parts : List Text) : Text :=
  if parts.isEmpty then [opening, closing]
  else
    opening :: newline (depth + 1) ++ Text.joinWith (',' :: newline (depth + 1)) parts ++
      newline depth ++ [closing]

def renderAt (depth : Nat) : Json → Text
  | .null | .broken => "null".toList
  | .bool b => if b then "true".toList else "false".toList
  | .natural n => Numeral.decimal n
  | .number t => t
  | .string t => quote t
  | .array items =>
    bracket depth '[' ']' (items.attach.map fun ⟨j, _⟩ => renderAt (depth + 1) j)
  | .object fields =>
    bracket depth '{' '}' (fields.attach.map fun ⟨(name, j), _⟩ =>
      quote name ++ ':' :: ' ' :: renderAt (depth + 1) j)
termination_by j => sizeOf j
decreasing_by
  · rename_i h
    have := List.sizeOf_lt_of_mem h
    simp only [Json.array.sizeOf_spec]
    omega
  · rename_i h
    have := List.sizeOf_lt_of_mem h
    simp only [Prod.mk.sizeOf_spec] at this
    simp only [Json.object.sizeOf_spec]
    omega

def render (j : Json) : Text := renderAt 0 j

end Json

end Dcpu
