import Dcpu.Abort
import Dcpu.Disk.Path

/-! Files: what a path leads to, and a tree of files and directories in memory. -/
namespace Dcpu

/-- What a path leads to. `blocked` is a path through something that is no directory. -/
inductive Node where
  | file (bytes : List UInt8)
  | directory
  | missing
  | blocked
  deriving DecidableEq, Repr

namespace Node

def isFile : Node → Bool
  | .file _ => true
  | _ => false

/-- The text that bytes encode in UTF-8. -/
def decode? (bytes : List UInt8) : Option Text :=
  (String.fromUTF8? ⟨bytes.toArray⟩).map String.toList

/-- The text of a file, or why there is none. -/
def text : Node → Except String Text
  | .file bytes =>
    match decode? bytes with
    | some t => .ok t
    | none => .error "stream did not contain valid UTF-8"
  | .directory => .error "Is a directory (os error 21)"
  | .missing => .error "No such file or directory (os error 2)"
  | .blocked => .error "Not a directory (os error 20)"

end Node

/-- Tells what a path leads to, unless that is not known yet. -/
abbrev Disk := Text → Except Abort Node

namespace Disk

/-- The disk of which only some paths are known. -/
def ofKnown (known : List (Text × Node)) : Disk := fun path =>
  match known.lookup path with
  | some n => .ok n
  | none => .error (.unread path)

/-- The disk as seen from a directory. -/
def within (d : Disk) (dir : Text) : Disk := fun path => d (Path.join dir path)

/-- The first path that leads to a file. -/
def firstFile? (d : Disk) : List Text → Except Abort (Option Text)
  | [] => .ok none
  | p :: ps => do
    let n ← d p
    if n.isFile then return some p else d.firstFile? ps

end Disk

/-- Files and directories by their lists of names from the root. The directories above a listed
one exist as well. A name `..` at the front leads out of the tree, to directories in which nothing
is known. -/
structure Tree where
  files : List (List Text × List UInt8) := []
  dirs : List (List Text) := []
  deriving DecidableEq, Repr

namespace Tree

/-- What a list of names leads to. -/
def entry (t : Tree) (names : List Text) : Node :=
  match t.files.lookup names with
  | some bytes => .file bytes
  | none =>
    let isAbove (other : List Text) : Bool := names.isPrefixOf other
    let isTop : Bool := names.all (· = ['.', '.'])
    if isTop || t.files.any (fun f => isAbove f.1) || t.dirs.any isAbove then .directory
    else .missing

/-- The place above another one, both given by their names in reverse order. -/
def above : List Text → List Text
  | [] => [['.', '.']]
  | name :: rest => if name = ['.', '.'] then name :: name :: rest else rest

/-- Follows the components of a path from the place `here`, given by its names in reverse order. Each
component needs a directory to start from. -/
def follow (t : Tree) (here : List Text) : List Text → Except Node (List Text)
  | [] => .ok here
  | c :: rest =>
    match t.entry here.reverse with
    | .directory =>
      if c = [] ∨ c = ['.'] then t.follow here rest
      else if c = ['.', '.'] then t.follow (above here) rest
      else t.follow (c :: here) rest
    | .file _ => .error .blocked
    | other => .error other

/-- What a relative path leads to. -/
def node (t : Tree) (path : Text) : Node :=
  if path.isEmpty || Path.isAbsolute path then .missing
  else
    match t.follow [] (Text.splitOn '/' path) with
    | .ok here => t.entry here.reverse
    | .error n => n

def disk (t : Tree) : Disk := fun path => .ok (t.node path)

/-- The directory that holds what a path names, and the name in it. -/
def place? (t : Tree) (path : Text) : Option (List Text × Text) :=
  match (Text.splitOn '/' path).reverse with
  | [] => none
  | name :: dirs =>
    if name = [] ∨ name = ['.'] ∨ name = ['.', '.'] ∨ Path.isAbsolute path then none
    else
      match t.follow [] dirs.reverse with
      | .ok here => if t.entry here.reverse = .directory then some (here.reverse, name) else none
      | .error _ => none

/-- Writes a file in a directory that exists. What is written outside is not kept. -/
def write? (t : Tree) (path : Text) (bytes : List UInt8) : Option Tree := do
  let (dir, name) ← t.place? path
  let names := dir ++ [name]
  if t.entry names = .directory then none
  else if dir.head? = some ['.', '.'] then return t
  else return { t with files := (names, bytes) :: t.files.filter fun f => f.1 ≠ names }

/-- A tree of files and directories given by their paths. -/
def ofPaths (files : List (Text × List UInt8)) (dirs : List Text) : Tree :=
  let names (p : Text) : List Text := (Text.splitOn '/' p).filter fun c => c ≠ [] ∧ c ≠ ['.']
  ⟨files.map fun (p, bytes) => (names p, bytes), dirs.map names⟩

/-- The files that are new or differ from those of an earlier tree, by path. -/
def changesFrom (t earlier : Tree) : List (Text × List UInt8) :=
  (t.files.filter fun f => earlier.files.lookup f.1 ≠ some f.2).map fun (names, bytes) =>
    (Text.joinWith ['/'] names, bytes)

end Tree

end Dcpu
