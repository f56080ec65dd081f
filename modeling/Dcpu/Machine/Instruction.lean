import Dcpu.Text.Basic
import Dcpu.Machine.Word

/-! Instructions and their words: the instruction word, then the word of operand A, then that of
operand B. A small literal of operand A is packed into the instruction word. -/
namespace Dcpu

/-- The code of an operand that is the next word. -/
def nextWordCode : UInt8 := 0x1F

/-- The code of an operand that is the word at the address in the next word. -/
def addressedCode : UInt8 := 0x1E

/-- The code of operand A that stands for a value itself: minus one and 0 to 30 have one. -/
def packedCode? (value : Word) : Option UInt8 :=
  if value = 0xFFFF then some 0x20
  else if value ≤ 30 then some (0x21 + value.toUInt8)
  else none

/-- The lowest `bits` bits of a code. -/
def field (bits : Word) (code : UInt8) : Word := code.toUInt16 &&& ((1 <<< bits) - 1)

/-- Five bits of opcode, five of operand B, six of operand A, from the low end. -/
def basicWord (opcode b a : UInt8) : Word :=
  field 5 opcode ||| (field 5 b <<< 5) ||| (field 6 a <<< 10)

/-- The opcode takes the place of operand B, and the low five bits are zero. -/
def nonBasicWord (opcode a : UInt8) : Word := (field 5 opcode <<< 5) ||| (field 6 a <<< 10)

/-- A literal expression of an operand and the last value it had. -/
structure Literal where
  text : Text
  value : Word
  deriving DecidableEq, Repr

structure Operand where
  code : UInt8
  literal : Option Literal
  deriving DecidableEq, Repr

/-- `b` is missing in non-basic instructions. `packed` says that the literal of `a` is part of the
instruction word. -/
structure Instruction where
  opcode : UInt8
  a : Operand
  b : Option Operand
  packed : Bool
  deriving DecidableEq, Repr

namespace Operand

/-- The word that follows the instruction word for this operand. -/
def trailing (o : Operand) : List Word := o.literal.toList.map Literal.value

def fitsPacked (o : Operand) : Bool := o.literal.any fun l => (packedCode? l.value).isSome

end Operand

namespace Instruction

/-- The code of operand A as it is encoded. -/
def codeA (i : Instruction) : UInt8 :=
  if i.packed then (i.a.literal.bind fun l => packedCode? l.value).getD i.a.code else i.a.code

def head (i : Instruction) : Word :=
  match i.b with
  | some b => basicWord i.opcode b.code i.codeA
  | none => nonBasicWord i.opcode i.codeA

def encode (i : Instruction) : List Word :=
  i.head :: ((if i.packed then [] else i.a.trailing) ++ i.b.toList.flatMap Operand.trailing)

/-- Packs the literal of operand A if its form and value allow it. -/
def pack (allowed : Bool) (i : Instruction) : Instruction :=
  { i with packed := allowed && i.a.code == nextWordCode && i.a.fitsPacked }

end Instruction

end Dcpu
