import Dcpu.Text.Quote

/-! The supply of source lines. Included files and expanded macro calls are frames on a stack; the
innermost one is read to its end before the next one goes on. -/
namespace Dcpu

/-- A line as it is handed out. `root` counts all lines of all frames from one. -/
structure SourceLine where
  text : Text
  file : Text
  line : Nat
  root : Nat
  deriving DecidableEq, Repr

/-- The lines of a file are counted, those of a macro call have the number of the calling line. -/
inductive Numbering where
  | counted (last : Nat)
  | fixed (line : Nat)
  deriving DecidableEq, Repr

namespace Numbering

/-- The number of the line `i` lines after the next one. -/
def ahead (n : Numbering) (i : Nat) : Nat :=
  match n with
  | .counted last => last + i + 1
  | .fixed line => line

/-- The numbering after `n` more lines. -/
def advance : Numbering → Nat → Numbering
  | .counted last, n => .counted (last + n)
  | .fixed line, _ => .fixed line

def isCounted : Numbering → Bool
  | .counted _ => true
  | .fixed _ => false

end Numbering

/-- The lines of a file or of a macro call that are still to come. -/
structure Frame where
  file : Text
  rest : List Text
  numbering : Numbering
  deriving DecidableEq, Repr

def Frame.drop (f : Frame) (n : Nat) : Frame :=
  { f with rest := f.rest.drop n, numbering := f.numbering.advance n }

/-- The innermost frame comes first. -/
structure Feed where
  frames : List Frame := []
  root : Nat := 0
  deriving DecidableEq, Repr

namespace Feed

def pushFile (feed : Feed) (file contents : Text) : Feed :=
  { feed with frames := ⟨file, Text.lines contents, .counted 0⟩ :: feed.frames }

def pushCall (feed : Feed) (body : List Text) (file : Text) (line : Nat) : Feed :=
  { feed with frames := ⟨file, body, .fixed line⟩ :: feed.frames }

def ofFile (file contents : Text) : Feed := ({} : Feed).pushFile file contents

/-- The name of the innermost file. -/
def currentFile? (feed : Feed) : Option Text :=
  (feed.frames.find? fun f => f.numbering.isCounted).map Frame.file

/-- The next line of the innermost frame. -/
def nextInFrame? (feed : Feed) : Option (SourceLine × Feed) :=
  match feed.frames with
  | [] => none
  | f :: fs =>
    match f.rest with
    | [] => none
    | t :: _ =>
      some (⟨t, f.file, f.numbering.ahead 0, feed.root + 1⟩, ⟨f.drop 1 :: fs, feed.root + 1⟩)

/-- The next line, after leaving the frames that have none. -/
def next? (feed : Feed) : Option (SourceLine × Feed) :=
  nextInFrame? { feed with frames := feed.frames.dropWhile fun f => f.rest.isEmpty }

/-- A line that was read and cleaned, with its number. -/
structure BlockLine where
  text : Text
  line : Nat
  deriving DecidableEq, Repr

/-- Reads the innermost frame up to the first line whose clean text satisfies `stop`, which is
missing if the frame ends before. -/
def takeBlock (stop : Text → Bool) (feed : Feed) : List BlockLine × Option BlockLine × Feed :=
  match feed.frames with
  | [] => ([], none, feed)
  | f :: fs =>
    let body := (f.rest.map Text.clean).takeWhile fun t => !stop t
    let last := ((f.rest.map Text.clean).drop body.length).head?
    let count := body.length + last.toList.length
    (body.zipIdx.map fun (t, i) => ⟨t, f.numbering.ahead i⟩,
      last.map fun t => ⟨t, f.numbering.ahead body.length⟩,
      ⟨f.drop count :: fs, feed.root + count⟩)

end Feed

end Dcpu
