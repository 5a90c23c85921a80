/-
Quoted text: a text between double quotes with everything that would not show as itself escaped.
A quote and a backslash get a backslash, tab, newline, carriage return and NUL have a letter, and
any other character that is unprintable or attaches to its neighbour is written by its code point.
-/
import FoolLang.Text.Unprintable
import FoolLang.Text.Extending

namespace FoolLang.Text

/-- The lower-case hexadecimal digits of a number, without leading zeros. -/
def hexDigits (n : Nat) : List Char := Nat.toDigits 16 n

/-- A character as it stands between the quotes. -/
def escape (c : Char) : List Char :=
  match c with
  | '"' => ['\\', '"']
  | '\\' => ['\\', '\\']
  | '\t' => ['\\', 't']
  | '\n' => ['\\', 'n']
  | '\r' => ['\\', 'r']
  | '\x00' => ['\\', '0']
  | c =>
    if isUnprintable c || isExtending c then
      ['\\', 'u', '\x7b'] ++ hexDigits c.toNat ++ ['\x7d']
    else [c]

/-- The quoted form of a text. -/
def quote (s : String) : String :=
  String.ofList ('"' :: s.toList.flatMap escape ++ ['"'])

end FoolLang.Text
