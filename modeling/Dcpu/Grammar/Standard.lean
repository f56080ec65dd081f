import Dcpu.Grammar.Table

/-! The instruction set of the DCPU-16. -/
namespace Dcpu.Grammar

/-- Mnemonics of instructions with two operands. -/
def basicMnemonics : List (UInt8 × String) :=
  [(0x01, "SET"), (0x02, "ADD"), (0x03, "SUB"), (0x04, "MUL"), (0x05, "MLI"), (0x06, "DIV"),
    (0x07, "DVI"), (0x08, "MOD"), (0x09, "MDI"), (0x0A, "AND"), (0x0B, "BOR"), (0x0C, "XOR"),
    (0x0D, "SHR"), (0x0E, "ASR"), (0x0F, "SHL"), (0x10, "IFB"), (0x11, "IFC"), (0x12, "IFE"),
    (0x13, "IFN"), (0x14, "IFG"), (0x15, "IFA"), (0x16, "IFL"), (0x17, "IFU"), (0x1A, "ADX"),
    (0x1B, "SBX"), (0x1E, "STI"), (0x1F, "STD")]

/-- Mnemonics of instructions with one operand. -/
def nonBasicMnemonics : List (UInt8 × String) :=
  [(0x01, "JSR"), (0x08, "INT"), (0x09, "IAG"), (0x0A, "IAS"), (0x0B, "RFI"), (0x0C, "IAQ"),
    (0x10, "HWN"), (0x11, "HWQ"), (0x12, "HWI")]

/-- The general registers with their numbers. -/
def registers : List (UInt8 × String) :=
  [(0, "A"), (1, "B"), (2, "C"), (3, "X"), (4, "Y"), (5, "Z"), (6, "I"), (7, "J")]

/-- Operands of the stack, the stack pointer, the program counter and the overflow register, and
last the two that take any literal. -/
def specialValues : List (UInt8 × String) :=
  [(0x18, "PUSH"), (0x18, "POP"), (0x19, "PEEK"), (0x19, "[-SP-]"), (0x1A, "PICK_$a"),
    (0x1A, "[-SP-+-$a-]"), (0x1B, "SP"), (0x1C, "PC"), (0x1D, "EX"), (0x1E, "[-$a-]"),
    (0x1F, "$a")]

/-- Patterns from mnemonics or registers, with an offset for their codes and text around them. -/
def patterns (offset : UInt8) (before after : String) (names : List (UInt8 × String)) :
    List Pattern :=
  names.map fun (code, name) => ⟨before.toList ++ name.toList ++ after.toList, offset + code⟩

/-- The forms of an operand, special ones before general ones: a register, the word at a register,
the word at a register plus a literal in either order, then the special values. -/
def standard : Grammar where
  opcodes := patterns 0 "" "_%b-,-%a" basicMnemonics
  nonBasic := patterns 0 "" "_%a" nonBasicMnemonics
  values :=
    patterns 0 "" "" registers ++ patterns 0x08 "[-" "-]" registers ++
      patterns 0x10 "[-" "-+-$a-]" registers ++ patterns 0x10 "[-$a-+-" "-]" registers ++
      patterns 0 "" "" specialValues

end Dcpu.Grammar
