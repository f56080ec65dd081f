import Dcpu.Assembly.Job
import Dcpu.Machine.Image

/-! Data words: items of data directives, strings and binary files. -/
namespace Dcpu

/-- An item between commas: a string, an expression, or neither. -/
inductive Datum where
  | string (t : Text)
  | expr (t : Text)
  | bad
  deriving DecidableEq, Repr

namespace Datum

def ofItem (item : Text) : Datum :=
  match item with
  | [] => .bad
  | '"' :: _ => (((Text.unquote? item).bind Text.unescape?).map .string).getD .bad
  | _ => .expr item

def items (args : Text) : List Datum :=
  (Text.splitFree ',' args).map fun item => ofItem (Text.trim item)

end Datum

/-- One word for each character, its code cut to sixteen bits. -/
def textWords (t : Text) : List Word := t.map fun c => UInt16.ofNat c.toNat

/-- The word of an expression. It is computed again later if it has no value yet or can move. -/
def Cell.ofResult (e : Text) (r : Result) : Cell :=
  ⟨r.value, if r.ok && !r.relocatable then none else some e⟩

/-- The cells of a data directive so far. -/
structure DataRun where
  symbols : SymbolTable
  cells : Array Cell := #[]
  fault : Option Fault := none

namespace DataRun

def add (v : Session) (p : Position) (run : DataRun) : Datum → Except Abort DataRun
  | .string t => .ok { run with cells := run.cells ++ (textWords t).map Cell.fixed }
  | .expr e => do
    let (r, s) ← v.eval run.symbols p e
    return { run with symbols := s, cells := run.cells.push (.ofResult e r) }
  | .bad => .ok { run with fault := some .illegalExpression }

end DataRun

/-- The cells of a list of items. Items that are neither string nor expression are left out. -/
def dataCells (v : Session) (s : SymbolTable) (p : Position) (items : List Datum) :
    Except Abort DataRun :=
  items.foldlM (DataRun.add v p) { symbols := s }

/-- How the words of a string are laid out: as they are, with a zero at the end, or with their
number in front. -/
inductive StringStyle where
  | plain | terminated | counted
  deriving DecidableEq, Repr

/-- The words of a string, unless there are more than a word can count. -/
def StringStyle.words? (style : StringStyle) (t : Text) : Option (List Word) :=
  match style with
  | .plain => some (textWords t)
  | .terminated => some (textWords t ++ [0])
  | .counted => (Word.ofNat? t.length).map fun n => n :: textWords t

/-- The words of a list of strings, and whether every item was one. -/
def stringWords (style : StringStyle) (items : List Datum) : List Word × Bool :=
  let ws := items.map fun
    | .string t => style.words? t
    | _ => none
  (ws.flatMap fun w => w.getD [], ws.all Option.isSome)

end Dcpu
