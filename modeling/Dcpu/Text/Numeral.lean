import Dcpu.Text.Basic
import Dcpu.Machine.Word

/-! Numerals: reading digits of a radix and number literals, writing decimal and hexadecimal. -/
namespace Dcpu.Numeral

/-- The value of a digit, letters standing for ten and more. -/
def digitValue (c : Char) : Option Nat :=
  if '0' ≤ c ∧ c ≤ '9' then some (c.toNat - '0'.toNat)
  else if 'a' ≤ c ∧ c ≤ 'z' then some (c.toNat - 'a'.toNat + 10)
  else if 'A' ≤ c ∧ c ≤ 'Z' then some (c.toNat - 'A'.toNat + 10)
  else none

def digit? (radix : Nat) (c : Char) : Option Nat := (digitValue c).filter (· < radix)

/-- The value of a nonempty sequence of digits. -/
def digits? (radix : Nat) (t : Text) : Option Nat :=
  if t.isEmpty then none
  else t.foldlM (fun n c => (digit? radix c).map (n * radix + ·)) 0

/-- As `digits?`, with an optional plus sign. -/
def unsigned? (radix : Nat) : Text → Option Nat
  | '+' :: t => digits? radix t
  | t => digits? radix t

/-- The radix that a number literal announces and its digits. -/
def radixOf : Text → Nat × Text
  | '0' :: 'x' :: t => (16, t)
  | '0' :: 'b' :: t => (2, t)
  | '0' :: 'o' :: t => (8, t)
  | '0' :: 'd' :: t => (10, t)
  | t => (10, t)

/-- A number literal: `0x`, `0b`, `0o`, `0d` or plain decimal, in either case, with `_` anywhere. -/
def number? (t : Text) : Option Word :=
  let (radix, ds) := radixOf ((Text.lower t).filter (· ≠ '_'))
  (digits? radix ds).bind Word.ofNat?

/-- Decimal digits without leading zeros. -/
def decimal (n : Nat) : Text := Nat.toDigits 10 n

/-- Upper-case hexadecimal digits without leading zeros. -/
def hex (n : Nat) : Text := (Nat.toDigits 16 n).map Char.toUpper

/-- Exactly four upper-case hexadecimal digits. -/
def hexWord (w : Word) : Text := (hex w.toNat).leftpad 4 '0'

theorem length_decimal_le (w : Word) : (decimal w.toNat).length ≤ 5 := by
  have h : w.toNat < 10 ^ 5 := Nat.lt_trans w.toNat_lt (by decide)
  exact (Nat.length_toDigits_le_iff (by decide) (by decide)).mpr h

theorem isDigit_of_mem_decimal {n : Nat} {c : Char} (h : c ∈ decimal n) : c.isDigit = true :=
  Nat.isDigit_of_mem_toDigits (by decide) (by decide) h

end Dcpu.Numeral
