/-! Machine words: unsigned, sixteen bits wide, wrapping. -/
namespace Dcpu

abbrev Word := UInt16

namespace Word

/-- The number of addresses. -/
def count : Nat := 0x10000

/-- A number that fits into a word. -/
def ofNat? (n : Nat) : Option Word := if n < count then some (UInt16.ofNat n) else none

def ofBool (b : Bool) : Word := if b then 1 else 0

/-- The address `delta` words further, wrapping at both ends. -/
def move (w : Word) (delta : Int) : Word := UInt16.ofInt (w.toNat + delta)

end Word

end Dcpu
