/-
Lines of a text. A newline ends a line, a carriage return just before it belongs to the ending,
and no empty line follows the last newline.
-/

namespace FoolLang.Text

/-- The lines of a text without their endings. -/
def lines : List Char → List (List Char)
  | [] => []
  | '\n' :: s => [] :: lines s
  | '\r' :: '\n' :: s => [] :: lines s
  | c :: s =>
    match lines s with
    | [] => [[c]]
    | l :: ls => (c :: l) :: ls

/-- The line with a number counted from 1. -/
def line? (s : List Char) : Nat → Option (List Char)
  | 0 => none
  | n + 1 => (lines s)[n]?

end FoolLang.Text
