/-! Texts as lists of characters: white space, trimming, ASCII case, splitting and replacement. -/
namespace Dcpu

/-- A piece of source text. -/
abbrev Text := List Char

namespace Text

/-- The code points with the Unicode property White_Space, as closed ranges. -/
def blankRanges : List (Nat × Nat) :=
  [(0x09, 0x0D), (0x20, 0x20), (0x85, 0x85), (0xA0, 0xA0), (0x1680, 0x1680), (0x2000, 0x200A),
    (0x2028, 0x2029), (0x202F, 0x202F), (0x205F, 0x205F), (0x3000, 0x3000)]

def isBlank (c : Char) : Bool := blankRanges.any fun r => r.1 ≤ c.toNat && c.toNat ≤ r.2

def trimStart (t : Text) : Text := t.dropWhile isBlank

def trimEnd (t : Text) : Text := (t.reverse.dropWhile isBlank).reverse

def trim (t : Text) : Text := trimEnd (trimStart t)

/-- Lower case of the ASCII letters; every other character stays. -/
def lower (t : Text) : Text := t.map Char.toLower

/-- Equality up to the case of ASCII letters. -/
def sameFolded (s t : Text) : Bool := lower s == lower t

/-- The number of bytes of the UTF-8 form. -/
def utf8Length (t : Text) : Nat := t.foldr (fun c n => c.utf8Size + n) 0

/-- Puts a character in front of the first piece. -/
def consFirst (c : Char) : List Text → List Text
  | [] => [[c]]
  | p :: ps => (c :: p) :: ps

/-- The pieces between the characters that satisfy `p`; there is always one more than those. -/
def splitWhere (p : Char → Bool) (t : Text) : List Text :=
  t.foldr (fun c ps => if p c then [] :: ps else consFirst c ps) [[]]

def splitOn (sep : Char) (t : Text) : List Text := splitWhere (· == sep) t

/-- The pieces with `sep` between them. -/
def joinWith (sep : Text) : List Text → Text
  | [] => []
  | p :: ps => p ++ ps.flatMap fun q => sep ++ q

/-- The words between runs of white space. -/
def words (t : Text) : List Text := (splitWhere isBlank t).filter fun w => !w.isEmpty

/-- The first word and what follows it, both trimmed: `SET A, 1` gives `SET` and `A, 1`. -/
def firstWord (t : Text) : Text × Text :=
  let (word, rest) := (trim t).span fun c => !isBlank c
  (word, trimStart rest)

/-- Drops one carriage return at the end. -/
def dropReturn (t : Text) : Text := if t.getLast? = some '\r' then t.dropLast else t

/-- The lines of a text. A carriage return before a line feed belongs to the line end; an empty
last piece is no line. -/
def lines (t : Text) : List Text :=
  let pieces := splitOn '\n' t
  let last := pieces.getLastD []
  pieces.dropLast.map dropReturn ++ (if last.isEmpty then [] else [last])

/-- Drops the character `c` from the end. -/
def dropLast? (c : Char) (t : Text) : Option Text :=
  if t.getLast? = some c then some t.dropLast else none

/-- Fills up with blanks to a number of characters. -/
def padEnd (width : Nat) (t : Text) : Text := t.rightpad width ' '

/-- `skip` characters of the text belong to an occurrence that was already replaced. -/
def replaceFrom (pat new : Text) : Nat → Text → Text
  | _, [] => []
  | skip + 1, _ :: t => replaceFrom pat new skip t
  | 0, c :: t =>
    if pat.isPrefixOf (c :: t) then new ++ replaceFrom pat new (pat.length - 1) t
    else c :: replaceFrom pat new 0 t

/-- Replaces the occurrences of `pat` from left to right, without overlap. An empty `pat` occurs
before every character and at the end. -/
def replaceAll (pat new t : Text) : Text :=
  if pat.isEmpty then new ++ t.flatMap (fun c => c :: new) else replaceFrom pat new 0 t

end Text

end Dcpu
