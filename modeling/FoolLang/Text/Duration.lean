/-
Durations as text: in the largest unit that gives a number of at least one, with as many decimals
as it needs.
-/

namespace FoolLang.Text

/--
The decimals of a fraction: of a numerator over a power of ten, given by its number of zeros. No
zeros stand at the end.
-/
def decimals (places numerator : Nat) : List Char :=
  let digits := (toString numerator).toList
  let all := List.replicate (places - digits.length) '0' ++ digits
  (all.reverse.dropWhile (· == '0')).reverse

/-- A number of nanoseconds as a count of a unit of so many decimal places. -/
def inUnit (places nanos : Nat) (unit : String) : String :=
  let scale := Nat.pow 10 places
  let whole := toString (nanos / scale)
  match decimals places (nanos % scale) with
  | [] => whole ++ unit
  | ds => whole ++ "." ++ String.ofList ds ++ unit

/-- A number of nanoseconds in the unit that suits it. -/
def duration (nanos : Nat) : String :=
  if 1000000000 ≤ nanos then inUnit 9 nanos "s"
  else if 1000000 ≤ nanos then inUnit 6 nanos "ms"
  else if 1000 ≤ nanos then inUnit 3 nanos "µs"
  else inUnit 0 nanos "ns"

end FoolLang.Text
