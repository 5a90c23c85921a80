/-
Assembly text: one instruction or label per line, with any blanks around it and between a mnemonic
and its operand. Reading stops at the first line that is not an instruction.
-/
import FoolLang.Diagnostic
import FoolLang.Machine.Instruction
import FoolLang.Text.Blank
import FoolLang.Text.Lines
import FoolLang.Text.Name
import FoolLang.Text.Numeral

namespace FoolLang.Machine

/-- An instruction as it is written. -/
def Instruction.text : Instruction → String
  | .plain p => p.mnemonic
  | .push n => s!"push {Text.ofInt32 n}"
  | .pushLabel l => s!"push {l}"
  | .jump j l => s!"{j.mnemonic} {l}"
  | .label l => s!"{l}:"

namespace Assembly

/-- The text of a program, each instruction on a line of its own. -/
def render (code : List Instruction) : String :=
  String.join (code.map fun i => s!"{i.text}\n")

/-- What may follow a mnemonic. -/
inductive Operand where
  /-- Digits, perhaps after a minus sign. -/
  | number (text : List Char)
  | name (text : List Char)
deriving DecidableEq, Repr

/-- Whether a text is one or more digits, perhaps after a minus sign. -/
def isNumber : List Char → Bool
  | '-' :: s => s ≠ [] && s.all Char.isDigit
  | s => s ≠ [] && s.all Char.isDigit

/-- The operand that a text without blanks is. -/
def Operand.ofText? (s : List Char) : Option Operand :=
  if isNumber s then some (.number s) else if Text.isName s then some (.name s) else none

/-- The label that a line defines: a name and a colon. -/
def label? (line : List Char) : Option (List Char) :=
  match line.reverse with
  | ':' :: r => if Text.isName r.reverse then some r.reverse else none
  | _ => none

/-- A line cut into its mnemonic, of lower-case letters, and the operand after blanks, if any. -/
def parts? (line : List Char) : Option (String × Option Operand) :=
  let word := line.takeWhile Char.isLower
  let rest := line.dropWhile Char.isLower
  if word = [] then none
  else
    match rest with
    | [] => some (String.ofList word, none)
    | c :: _ =>
      if Text.isBlank c then
        (Operand.ofText? (rest.dropWhile Text.isBlank)).map fun o => (String.ofList word, some o)
      else none

/-- The instruction of a mnemonic and its operand, or why they are none. -/
def instruction (word : String) (operand : Option Operand) : Except Cause Instruction :=
  if word = "push" then
    match operand with
    | some (.number s) =>
      match Text.int32? s with
      | some n => .ok (.push n)
      | none => .error (.numberParseError (String.ofList s))
    | some (.name s) => .ok (.pushLabel (String.ofList s))
    | none => .error (.unexpectedTokenDetailed word "expected a number or a label")
  else
    match Jump.ofMnemonic? word, operand with
    | some j, some (.name s) => .ok (.jump j (String.ofList s))
    | some _, _ => .error (.unexpectedTokenDetailed word "expected a label")
    | none, some _ => .error (.unexpectedTokenDetailed word "this instruction takes no operand")
    | none, none =>
      match Plain.ofMnemonic? word with
      | some p => .ok (.plain p)
      | none => .error (.unrecognisedToken word)

/-- The instruction on a line without blanks around it. -/
def readLine (line : List Char) : Except Cause Instruction :=
  match label? line with
  | some l => .ok (.label (String.ofList l))
  | none =>
    match parts? line with
    | some (word, operand) => instruction word operand
    | none => .error (.unrecognisedToken (String.ofList line))

/-- The instructions on some lines, the first of which has the number given. Empty lines count. -/
def readLines : List (List Char) → Nat → Except Diagnostic (List Instruction)
  | [], _ => .ok []
  | line :: more, n =>
    match Text.trim line with
    | [] => readLines more (n + 1)
    | c :: s =>
      match readLine (c :: s) with
      | .error cause => .error ⟨cause, n⟩
      | .ok i => (readLines more (n + 1)).map (i :: ·)

/-- Reads a text of assembly. -/
def read (source : String) : Except Diagnostic (List Instruction) :=
  readLines (Text.lines source.toList) 1

end Assembly

end FoolLang.Machine
