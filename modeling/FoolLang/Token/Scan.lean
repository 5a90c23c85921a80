/-
From text to tokens. At each place the first rule that fits takes a piece of the text: a word, a
number, blanks, a closed block comment, a line comment, or a mark. A block comment that is never
closed fits no comment rule, so its opening is read as two marks. Words, numbers and blanks are as
long as possible, and a character that begins no piece ends the reading.
-/
import FoolLang.Diagnostic
import FoolLang.Text.Blank
import FoolLang.Text.Name
import FoolLang.Token

namespace FoolLang

/-- A piece of program text: a token of some kind, or a gap between tokens. -/
structure Piece where
  first : Char
  more : List Char
  kind? : Option Kind
deriving DecidableEq, Repr

namespace Piece

/-- The characters of a piece. -/
def chars (p : Piece) : List Char := p.first :: p.more

/-- The text of a piece. -/
def text (p : Piece) : String := String.ofList p.chars

/-- The piece that some characters are, unless there are none. -/
def ofChars? (kind? : Option Kind) : List Char → Option Piece
  | [] => none
  | c :: s => some ⟨c, s, kind?⟩

/-- The longest name at the front: a keyword or an identifier. -/
def word? : List Char → Option Piece
  | [] => none
  | c :: s =>
    if Text.isNameStart c then
      let more := s.takeWhile Text.isNameRest
      some ⟨c, more, some (Kind.ofWord (String.ofList (c :: more)))⟩
    else none

/-- The longest run of digits at the front. -/
def number? (s : List Char) : Option Piece := ofChars? (some .number) (s.takeWhile Char.isDigit)

/-- The longest run of blanks at the front. -/
def blanks? (s : List Char) : Option Piece := ofChars? none (s.takeWhile Text.isBlank)

/-- A text up to and with the first mark that closes a comment. -/
def throughClose? : List Char → Option (List Char)
  | [] => none
  | '*' :: '/' :: _ => some ['*', '/']
  | c :: s => (throughClose? s).map (c :: ·)

/-- A block comment that is closed. -/
def blockComment? : List Char → Option Piece
  | '/' :: '*' :: s => (throughClose? s).map fun body => ⟨'/', '*' :: body, none⟩
  | _ => none

/-- A comment up to the end of the line. -/
def lineComment? : List Char → Option Piece
  | '/' :: '/' :: s => some ⟨'/', '/' :: s.takeWhile (· != '\n'), none⟩
  | _ => none

/-- The mark at the front, the longest one that fits. -/
def mark? (s : List Char) : Option Piece :=
  match Kind.marks.find? fun m => m.1.toList.isPrefixOf s with
  | some (spelling, k) => ofChars? (some k) spelling.toList
  | none => none

/-- The piece at the front of a text, by the first rule that fits. -/
def first? (s : List Char) : Option Piece :=
  word? s <|> number? s <|> blanks? s <|> blockComment? s <|> lineComment? s <|> mark? s

end Piece

namespace Token

/--
The line on which a text goes on behind some characters. Lines are counted in 32 bits, so behind `2 ^ 32` newlines the
count is where it was.
-/
def lineBehind (line : UInt32) (s : List Char) : UInt32 := line + UInt32.ofNat (s.count '\n')

@[simp] theorem lineBehind_nil (line : UInt32) : lineBehind line [] = line := by simp [lineBehind]

theorem lineBehind_append (line : UInt32) (s t : List Char) :
    lineBehind line (s ++ t) = lineBehind (lineBehind line s) t := by
  simp [lineBehind, UInt32.add_assoc]

theorem toNat_lineBehind (line : UInt32) (s : List Char) :
    (lineBehind line s).toNat = (line.toNat + s.count '\n') % UInt32.size := by
  simp [lineBehind]

/-- The tokens of a text that begins on a line, the token at its end included. -/
def scan (s : List Char) (line : UInt32) : Except Diagnostic (List Token) :=
  match s with
  | [] => .ok [atEnd line.toNat]
  | c :: s =>
    match Piece.first? (c :: s) with
    | none => .error ⟨.unrecognisedToken (String.singleton c), line.toNat⟩
    | some p =>
      let rest := scan (s.drop p.more.length) (lineBehind line p.chars)
      match p.kind? with
      | some k => rest.map (⟨k, p.text, line.toNat⟩ :: ·)
      | none => rest
termination_by s.length
decreasing_by simp only [List.length_cons, List.length_drop]; omega

/-- The tokens of a program text. -/
def ofSource (source : String) : Except Diagnostic (List Token) := scan source.toList 1

end Token

end FoolLang
