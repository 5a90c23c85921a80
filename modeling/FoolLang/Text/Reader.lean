/-
A place in a text that is read from front to back, with the line it is on and the name of the file.
Distances are counted in bytes of the encoded text.
-/

namespace FoolLang.Text

/-- What is left to read, the current line, which is counted in 32 bits, and the file. -/
structure Reader where
  rest : List Char
  line : Nat
  file : String

namespace Reader

/-- The start of a text; one that comes from no file is called `shell`. -/
def start (source : String) (file : Option String) : Reader :=
  ⟨source.toList, 1, file.getD "shell"⟩

/-- A text without the characters of its first bytes. -/
def dropBytes (n : Nat) : List Char → List Char
  | [] => []
  | c :: s => if n = 0 then c :: s else dropBytes (n - c.utf8Size) s

/-- Moves on by a number of bytes. -/
def advance (r : Reader) (n : Nat) : Reader := { r with rest := dropBytes n r.rest }

/-- Counts more lines. -/
def addLines (r : Reader) (n : Nat) : Reader := { r with line := (r.line + n) % UInt32.size }

/-- Whether nothing is left. -/
def atEnd (r : Reader) : Bool := r.rest.isEmpty

/-- The next character, NUL at the end. -/
def current (r : Reader) : Char := r.rest.headD '\x00'

end Reader

end FoolLang.Text
