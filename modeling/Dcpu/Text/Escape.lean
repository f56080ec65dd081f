import Dcpu.Text.Numeral

/-! Backslash escapes inside of literals and the quotes around a string. -/
namespace Dcpu.Text

/-- The character that a single letter after a backslash stands for. -/
def escaped? : Char → Option Char
  | 'a' => some '\x07'
  | 'b' => some '\x08'
  | 'f' => some '\x0c'
  | 'n' => some '\n'
  | 'r' => some '\r'
  | 't' => some '\t'
  | 'v' => some '\x0b'
  | '\'' => some '\''
  | '"' => some '"'
  | '\\' => some '\\'
  | '0' => some '\x00'
  | _ => none

/-- Resolves the escapes of a literal; `\xHH` gives one character by its code. -/
def unescape? : Text → Option Text
  | [] => some []
  | '\\' :: 'x' :: a :: b :: t => do
    let code ← Numeral.unsigned? 16 [a, b]
    let rest ← unescape? t
    return Char.ofNat code :: rest
  | ['\\'] => none
  | '\\' :: c :: t => do
    let c ← escaped? c
    let rest ← unescape? t
    return c :: rest
  | c :: t => (unescape? t).map (c :: ·)

/-- The text between the double quotes that surround it. -/
def unquote? (t : Text) : Option Text :=
  match trim t with
  | '"' :: rest => dropLast? '"' rest
  | _ => none

end Dcpu.Text
