import Dcpu.Machine.Word
import Dcpu.Text.Basic

/-! Binary operators of expressions. -/
namespace Dcpu

inductive Operator where
  | mul | div | add | sub | shiftLeft | shiftRight | or | and | xor | bitOr | bitXor | bitAnd | mod
  | sameText | otherText | equal | notEqual | unequal | greater | less | greaterEqual | lessEqual
  deriving DecidableEq, Repr

namespace Operator

/-- The operators in the order in which a split is looked for. -/
def all : List Operator :=
  [.mul, .div, .add, .sub, .shiftLeft, .shiftRight, .or, .and, .xor, .bitOr, .bitXor, .bitAnd,
    .mod, .sameText, .otherText, .equal, .notEqual, .unequal, .greater, .less, .greaterEqual,
    .lessEqual]

def symbol : Operator → Text
  | .mul => ['*']
  | .div => ['/']
  | .add => ['+']
  | .sub => ['-']
  | .shiftLeft => ['<', '<']
  | .shiftRight => ['>', '>']
  | .or => ['|', '|']
  | .and => ['&', '&']
  | .xor => ['^', '^']
  | .bitOr => ['|']
  | .bitXor => ['^']
  | .bitAnd => ['&']
  | .mod => ['%']
  | .sameText => ['=', '=', '=']
  | .otherText => ['!', '=', '=']
  | .equal => ['=', '=']
  | .notEqual => ['!', '=']
  | .unequal => ['<', '>']
  | .greater => ['>']
  | .less => ['<']
  | .greaterEqual => ['>', '=']
  | .lessEqual => ['<', '=']

/-- The operators that compare the texts of their operands, with the answer for equal texts. -/
def comparesText? : Operator → Option Bool
  | .sameText => some true
  | .otherText => some false
  | _ => none

/-- The value on two words. Division by zero has none, and neither have the operators on texts;
shifts by sixteen and more give zero. -/
def compute? (op : Operator) (a b : Word) : Option Word :=
  match op with
  | .mul => some (a * b)
  | .div => if b = 0 then none else some (a / b)
  | .mod => if b = 0 then none else some (a % b)
  | .add => some (a + b)
  | .sub => some (a - b)
  | .shiftLeft => some (if b < 16 then a <<< b else 0)
  | .shiftRight => some (if b < 16 then a >>> b else 0)
  | .bitOr => some (a ||| b)
  | .bitXor => some (a ^^^ b)
  | .bitAnd => some (a &&& b)
  | .or => some (.ofBool (a ≠ 0 || b ≠ 0))
  | .and => some (.ofBool (a ≠ 0 && b ≠ 0))
  | .xor => some (.ofBool ((a ≠ 0 : Bool) != (b ≠ 0 : Bool)))
  | .equal => some (.ofBool (a = b))
  | .notEqual | .unequal => some (.ofBool (a ≠ b))
  | .less => some (.ofBool (a < b))
  | .greater => some (.ofBool (b < a))
  | .lessEqual => some (.ofBool (a ≤ b))
  | .greaterEqual => some (.ofBool (b ≤ a))
  | .sameText | .otherText => none

theorem mem_all (op : Operator) : op ∈ all := by
  cases op <;> decide

theorem length_symbol_pos (op : Operator) : 0 < op.symbol.length := by
  cases op <;> decide

end Operator

end Dcpu
