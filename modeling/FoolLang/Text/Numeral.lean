/-
Decimal numerals of 32 bits: an optional sign, then one or more ASCII digits, with a value that
fits. Leading zeros are allowed; a sign alone, a blank or any other character is not.
-/

namespace FoolLang.Text

/-- The value of a run of digits, the most significant one first. -/
def digitsValue (digits : List Char) : Nat :=
  digits.foldl (fun n d => 10 * n + (d.toNat - '0'.toNat)) 0

/-- Reads one or more ASCII digits. -/
def nat? (s : List Char) : Option Nat :=
  if s ≠ [] ∧ s.all Char.isDigit then some (digitsValue s) else none

/-- Reads an optional sign and digits. -/
def int? : List Char → Option Int
  | '-' :: digits => (nat? digits).map fun n => -(n : Int)
  | '+' :: digits => (nat? digits).map fun n => (n : Int)
  | digits => (nat? digits).map fun n => (n : Int)

/-- Reads a numeral whose value is a signed word of 32 bits. -/
def int32? (s : List Char) : Option Int32 := do
  let n ← int? s
  if -2147483648 ≤ n ∧ n ≤ 2147483647 then some (Int32.ofInt n) else none

/-- The numeral of a word: a minus sign where it is negative, no leading zeros. -/
def ofInt32 (n : Int32) : String := toString n.toInt

end FoolLang.Text
