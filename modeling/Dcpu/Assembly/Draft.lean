import Dcpu.Hook
import Dcpu.Source.Condition
import Dcpu.Source.Feed
import Dcpu.Source.Template

/-! The program as far as its lines have been read. -/
namespace Dcpu

structure Draft where
  feed : Feed
  symbols : SymbolTable
  templates : List Template := []
  blocks : Conditions := .start
  entries : Array Entry := #[]
  address : Word := 0
  listed : Bool := true
  longForm : Bool := false
  events : Array Event := #[]
  deriving Repr

namespace Draft

/-- An empty entry for a line at the current address. -/
def entry (d : Draft) (line : SourceLine) (code : Text) : Entry where
  code := code
  file := line.file
  line := line.line
  address := d.address
  listed := d.listed
  root := line.root
  scope := d.symbols.scope

/-- An entry that only shows a text. -/
def note (d : Draft) (code file : Text) (line : Nat) : Entry :=
  { code := code, file := file, line := line, address := d.address, listed := d.listed }

/-- Adds an entry and goes on behind its words. -/
def push (d : Draft) (e : Entry) : Draft :=
  let e := if Word.count < d.address.toNat + e.length then e.addCaution .addressWrap else e
  { d with entries := d.entries.push e, address := d.address + e.size }

def pushFault (d : Draft) (e : Entry) (f : Fault) : Draft := d.push { e with fault := some f }

/-- Adds an entry with the fault of what was attempted, if there was one. -/
def pushOutcome (d : Draft) (e : Entry) : Option Fault → Draft
  | none => d.push e
  | some f => d.pushFault e f

end Draft

end Dcpu
