import Dcpu.Text.Basic

/-! Quoted literals: which characters of a text stand outside of string and character literals. -/
namespace Dcpu

inductive Delimiter where
  | string | char
  deriving DecidableEq, Repr

/-- The character that opens and closes the literal. -/
def Delimiter.mark : Delimiter → Char
  | .string => '"'
  | .char => '\''

/-- Where a scan from left to right stands. -/
inductive Quote where
  | outside
  | inside (delimiter : Delimiter) (escaped : Bool)
  deriving DecidableEq, Repr

namespace Quote

/-- Inside a literal a backslash takes the next character with it. -/
def next : Quote → Char → Quote
  | .outside, c =>
    if c = Delimiter.string.mark then .inside .string false
    else if c = Delimiter.char.mark then .inside .char false
    else .outside
  | .inside d true, _ => .inside d false
  | .inside d false, c =>
    if c = '\\' then .inside d true
    else if c = d.mark then .outside
    else .inside d false

/-- Whether a character read in this state belongs to no literal, its quotes included. -/
def isFree : Quote → Char → Bool
  | .outside, c => c ≠ Delimiter.string.mark && c ≠ Delimiter.char.mark
  | .inside .., _ => false

end Quote

/-- A character and whether it stands outside of every literal. -/
structure Mark where
  char : Char
  free : Bool
  deriving DecidableEq, Repr

namespace Mark

/-- The character stands outside of literals and is `c`. -/
def isOpenly (m : Mark) (c : Char) : Bool := m.free && m.char == c

/-- What the character adds to the depth of brackets. -/
def depthStep (m : Mark) : Int :=
  if !m.free then 0
  else match m.char with
    | '(' | '[' | '{' => 1
    | ')' | ']' | '}' => -1
    | _ => 0

end Mark

namespace Text

def markedFrom : Quote → Text → List Mark
  | _, [] => []
  | q, c :: t => ⟨c, q.isFree c⟩ :: markedFrom (q.next c) t

/-- The characters of a text with their marks. -/
def marked (t : Text) : List Mark := markedFrom .outside t

/-- The text without its marks. -/
def unmarked (ms : List Mark) : Text := ms.map Mark.char

theorem unmarked_markedFrom (q : Quote) (t : Text) : unmarked (markedFrom q t) = t := by
  induction t generalizing q with
  | nil => rfl
  | cons c t ih => simpa [markedFrom, unmarked] using ih (q.next c)

@[simp] theorem unmarked_marked (t : Text) : unmarked (marked t) = t :=
  unmarked_markedFrom .outside t

/-- The text before and after the first free `c`. -/
def cutAt (c : Char) (t : Text) : Option (Text × Text) :=
  match (marked t).span fun m => !m.isOpenly c with
  | (_, []) => none
  | (before, _ :: after) => some (unmarked before, unmarked after)

/-- Cuts a line at its first free semicolon. -/
def dropComment (t : Text) : Text :=
  trim (unmarked ((marked t).takeWhile fun m => !m.isOpenly ';'))

/-- `inRun` says that the last character belonged to a run of free white space. -/
def squeeze (inRun : Bool) : List Mark → Text
  | [] => []
  | m :: ms =>
    if m.free && isBlank m.char then
      if inRun then squeeze true ms else ' ' :: squeeze true ms
    else m.char :: squeeze false ms

/-- Every run of free white space becomes one blank. -/
def collapse (t : Text) : Text := squeeze false (marked (trim t))

/-- The form in which a line is read: no comment, single blanks. -/
def clean (line : Text) : Text := collapse (dropComment line)

/-- Brackets themselves never separate, whatever `sep` is. -/
def splitMarks (sep : Char) : Int → List Mark → List Text
  | _, [] => [[]]
  | depth, m :: ms =>
    if m.isOpenly sep && m.depthStep == 0 && depth ≤ 0 then [] :: splitMarks sep depth ms
    else consFirst m.char (splitMarks sep (depth + m.depthStep) ms)

/-- The pieces between the free `sep` outside of brackets. -/
def splitFree (sep : Char) (t : Text) : List Text := splitMarks sep 0 (marked t)

end Text

end Dcpu
