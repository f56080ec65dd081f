import Dcpu.Json.Basic

/-! Reading JSON text. -/
namespace Dcpu.Json

def isBlank (c : Char) : Bool := c == ' ' || c == '\n' || c == '\t' || c == '\r'

def skipBlank (t : Text) : Text := t.dropWhile isBlank

/-- A part of a string: a character, or half of a surrogate pair. -/
inductive Unit16 where
  | char (c : Char)
  | high (n : Nat)
  | low (n : Nat)
  deriving DecidableEq, Repr

def Unit16.ofCode (n : Nat) : Unit16 :=
  if 0xD800 ≤ n ∧ n < 0xDC00 then .high n
  else if 0xDC00 ≤ n ∧ n < 0xE000 then .low n
  else .char (Char.ofNat n)

/-- The character of a letter after a backslash. -/
def unescaped? : Char → Option Char
  | '"' => some '"'
  | '\\' => some '\\'
  | '/' => some '/'
  | 'b' => some '\x08'
  | 'f' => some '\x0c'
  | 'n' => some '\n'
  | 'r' => some '\r'
  | 't' => some '\t'
  | _ => none

/-- The parts of a string up to its closing quote, and the text after it. -/
def units? : Text → Option (List Unit16 × Text)
  | [] => none
  | '"' :: t => some ([], t)
  | '\\' :: 'u' :: a :: b :: c :: d :: t => do
    let code ← Numeral.digits? 16 [a, b, c, d]
    let (us, t) ← units? t
    return (.ofCode code :: us, t)
  | '\\' :: c :: t => do
    let c ← unescaped? c
    let (us, t) ← units? t
    return (.char c :: us, t)
  | c :: t =>
    if c.toNat < 0x20 || c == '\\' then none
    else (units? t).map fun (us, t) => (.char c :: us, t)

/-- Joins the halves of surrogate pairs. -/
def decode? : List Unit16 → Option Text
  | [] => some []
  | .char c :: us => (decode? us).map (c :: ·)
  | .high h :: .low l :: us =>
    (decode? us).map (Char.ofNat (0x10000 + (h - 0xD800) * 0x400 + (l - 0xDC00)) :: ·)
  | _ => none

def digitRun (t : Text) : Text × Text := t.span Char.isDigit

/-- The digits before the point: no leading zero but a single one. -/
def integerPart? (t : Text) : Option (Text × Text) :=
  match t with
  | '0' :: t => if t.head?.any Char.isDigit then none else some (['0'], t)
  | _ =>
    match digitRun t with
    | ([], _) => none
    | found => some found

/-- The point and the digits after it, if there is a point. -/
def fractionPart? (t : Text) : Option (Text × Text) :=
  match t with
  | '.' :: t =>
    match digitRun t with
    | ([], _) => none
    | (ds, t) => some ('.' :: ds, t)
  | _ => some ([], t)

/-- The exponent, if there is one. -/
def exponentPart? (t : Text) : Option (Text × Text) :=
  let digits? (mark : Text) (t : Text) : Option (Text × Text) :=
    match digitRun t with
    | ([], _) => none
    | (ds, t) => some (mark ++ ds, t)
  match t with
  | 'e' :: '+' :: t | 'E' :: '+' :: t => digits? ['e', '+'] t
  | 'e' :: '-' :: t | 'E' :: '-' :: t => digits? ['e', '-'] t
  | 'e' :: t | 'E' :: t => digits? ['e'] t
  | _ => some ([], t)

def number? (t : Text) : Option (Json × Text) := do
  let (sign, t) := match t with
    | '-' :: t => (['-'], t)
    | _ => ([], t)
  let (whole, t) ← integerPart? t
  let (fraction, t) ← fractionPart? t
  let (exponent, t) ← exponentPart? t
  let plain := sign.isEmpty && fraction.isEmpty && exponent.isEmpty
  match plain, Numeral.digits? 10 whole with
  | true, some n => return (.natural n, t)
  | _, _ => return (.number (sign ++ whole ++ fraction ++ exponent), t)

/-- An object, if all names of its fields are texts. -/
def ofFields (fs : List (Option Text × Json)) : Json :=
  let named? (f : Option Text × Json) : Option (Text × Json) := f.1.map fun name => (name, f.2)
  ((fs.mapM named?).map Json.object).getD .broken

mutual

/-- A value at the start of a text, and the text after it. Every step of the descent takes one of
`fuel`. -/
def value? (fuel : Nat) (t : Text) : Option (Json × Text) :=
  match fuel with
  | 0 => none
  | fuel + 1 =>
    match t with
    | 'n' :: 'u' :: 'l' :: 'l' :: t => some (.null, t)
    | 't' :: 'r' :: 'u' :: 'e' :: t => some (.bool true, t)
    | 'f' :: 'a' :: 'l' :: 's' :: 'e' :: t => some (.bool false, t)
    | '"' :: t => (units? t).map fun (us, t) =>
        (((decode? us).map Json.string).getD .broken, t)
    | '[' :: t =>
      match skipBlank t with
      | ']' :: t => some (.array [], t)
      | t => (items? fuel t).map fun (js, t) => (.array js, t)
    | '{' :: t =>
      match skipBlank t with
      | '}' :: t => some (.object [], t)
      | t => (fields? fuel t).map fun (fs, t) => (ofFields fs, t)
    | _ => number? t

/-- The items up to the closing bracket. -/
def items? (fuel : Nat) (t : Text) : Option (List Json × Text) :=
  match fuel with
  | 0 => none
  | fuel + 1 => do
    let (j, t) ← value? fuel t
    match skipBlank t with
    | ']' :: t => return ([j], t)
    | ',' :: t =>
      let (js, t) ← items? fuel (skipBlank t)
      return (j :: js, t)
    | _ => none

/-- The fields up to the closing brace, with their names as far as they are texts. -/
def fields? (fuel : Nat) (t : Text) : Option (List (Option Text × Json) × Text) :=
  match fuel, t with
  | fuel + 1, '"' :: t => do
    let (us, t) ← units? t
    let name := decode? us
    match skipBlank t with
    | ':' :: t =>
      let (j, t) ← value? fuel (skipBlank t)
      match skipBlank t with
      | '}' :: t => return ([(name, j)], t)
      | ',' :: t =>
        let (fs, t) ← fields? fuel (skipBlank t)
        return ((name, j) :: fs, t)
      | _ => none
    | _ => none
  | _, _ => none

end

/-- Reads a text that is one JSON value with white space around it. -/
def parse? (t : Text) : Option Json := do
  let (j, rest) ← value? (2 * t.length + 2) (skipBlank t)
  if (skipBlank rest).isEmpty then return j else none

end Dcpu.Json
