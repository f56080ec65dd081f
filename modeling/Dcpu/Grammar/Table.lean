import Dcpu.Grammar.Pattern
import Dcpu.Text.Numeral

/-! Grammars: tables of patterns for basic opcodes, non-basic opcodes and operand values. -/
namespace Dcpu

inductive TableKind where
  | opcode | nonBasic | value
  deriving DecidableEq, Repr

structure Grammar where
  opcodes : List Pattern := []
  nonBasic : List Pattern := []
  values : List Pattern := []
  deriving DecidableEq, Repr

namespace Grammar

def table (g : Grammar) : TableKind → List Pattern
  | .opcode => g.opcodes
  | .nonBasic => g.nonBasic
  | .value => g.values

/-- The match of the first pattern that consumes all of the text. -/
def match? (g : Grammar) (kind : TableKind) (t : Text) : Option Match :=
  (g.table kind).findSome? fun p => p.match? t

/-- The kind of table that a record names. -/
def kindOf? (t : Text) : Option TableKind :=
  match t with
  | ['o'] => some .opcode
  | ['n'] => some .nonBasic
  | ['a', ',', 'b'] => some .value
  | _ => none

/-- A record is a kind, a hexadecimal code of one byte and a pattern; further words are ignored. -/
def record? (line : Text) : Option (TableKind × Pattern) :=
  if line.head? = some '#' then none
  else match Text.words line with
    | kind :: code :: text :: _ => do
      let kind ← kindOf? kind
      let code ← (Numeral.unsigned? 16 code).filter (· < 256)
      return (kind, ⟨text, UInt8.ofNat code⟩)
    | _ => none

/-- Reads the records of a table text. Lines that hold none are skipped. -/
def parse (t : Text) : Grammar :=
  let records := (Text.lines t).filterMap fun line => record? (Text.trim line)
  let ofKind (kind : TableKind) : List Pattern :=
    records.filterMap fun r => if r.1 = kind then some r.2 else none
  ⟨ofKind .opcode, ofKind .nonBasic, ofKind .value⟩

end Grammar

end Dcpu
