import Dcpu.Text.Quote

/-! Patterns of instructions and operands. A pattern is plain text, compared without regard to
case, in which `_` stands for some spaces or tabs, `-` for any number of them, `%a` and `%b` for
operand texts and `$a` for a literal expression. A match consumes the whole text. -/
namespace Dcpu

/-- Where a captured text goes. -/
inductive Slot where
  | a | b | literal
  deriving DecidableEq, Repr

/-- A part of a pattern. A sigil at the end of a pattern is `dangling` and matches nothing. -/
inductive Piece where
  | gap
  | optionalGap
  | capture (sigil : Char) (slot : Slot)
  | dangling (sigil : Char)
  | char (c : Char)
  deriving DecidableEq, Repr

namespace Piece

/-- The pieces of a pattern text. -/
def parse : Text → List Piece
  | [] => []
  | '_' :: t => .gap :: parse t
  | '-' :: t => .optionalGap :: parse t
  | ['%'] => [.dangling '%']
  | ['$'] => [.dangling '$']
  | '%' :: 'a' :: t => .capture '%' .a :: parse t
  | '%' :: _ :: t => .capture '%' .b :: parse t
  | '$' :: _ :: t => .capture '$' .literal :: parse t
  | c :: t => .char c :: parse t

/-- The character that ends a capture before this piece; blanks end none. -/
def stop? : Piece → Option Char
  | .gap | .optionalGap => none
  | .capture sigil _ => some sigil
  | .dangling sigil => some sigil
  | .char c => some c

end Piece

/-- The texts that a match has captured, the last one for each slot. -/
structure Captures where
  a : Option Text := none
  b : Option Text := none
  literal : Option Text := none
  deriving DecidableEq, Repr

def Captures.set (found : Captures) (slot : Slot) (t : Text) : Captures :=
  match slot with
  | .a => { found with a := some t }
  | .b => { found with b := some t }
  | .literal => { found with literal := some t }

namespace Pattern

def isSpace (c : Char) : Bool := c == ' ' || c == '\t'

/-- Before the first free comma outside of brackets. -/
def commaIndex? : Int → List Mark → Option Nat
  | _, [] => none
  | depth, m :: ms =>
    if m.isOpenly ',' && depth ≤ 0 then some 0
    else (commaIndex? (depth + m.depthStep) ms).map (· + 1)

/-- Before the last free `c` of either case. -/
def lastIndex? (c : Char) : List Mark → Option Nat
  | [] => none
  | m :: ms =>
    match lastIndex? c ms with
    | some i => some (i + 1)
    | none => if m.free && m.char.toLower == c.toLower then some 0 else none

/-- How many characters a capture takes before the pieces `rest`: up to the first comma if a comma
comes next, up to the last place where another character can come next, else everything. -/
def captureLength? (rest : List Piece) (t : Text) : Option Nat :=
  match rest.findSome? Piece.stop? with
  | none => some t.length
  | some ',' => commaIndex? 0 (Text.marked t)
  | some c => lastIndex? c (Text.marked t)

def matchPieces : List Piece → Text → Captures → Option Captures
  | [], [], found => some found
  | [], _ :: _, _ => none
  | .gap :: ps, t, found =>
    match t with
    | [] => none
    | c :: _ => if isSpace c then matchPieces ps (t.dropWhile isSpace) found else none
  | .optionalGap :: ps, t, found => matchPieces ps (t.dropWhile isSpace) found
  | .capture _ slot :: ps, t, found =>
    match captureLength? ps t with
    | none => none
    | some n =>
      let captured := Text.trim (t.take n)
      if captured.isEmpty then none else matchPieces ps (t.drop n) (found.set slot captured)
  | .dangling _ :: _, _, _ => none
  | .char _ :: _, [], _ => none
  | .char p :: ps, c :: t, found =>
    if c.toLower == p.toLower then matchPieces ps t found else none

end Pattern

/-- A pattern and the code that it stands for. -/
structure Pattern where
  text : Text
  code : UInt8
  deriving DecidableEq, Repr

/-- A successful match: the pattern and what it captured. -/
structure Match where
  pattern : Pattern
  captures : Captures
  deriving DecidableEq, Repr

def Pattern.match? (p : Pattern) (t : Text) : Option Match :=
  (Pattern.matchPieces (Piece.parse p.text) (Text.trim t) {}).map fun found => ⟨p, found⟩

end Dcpu
