/-
The command line on files that are a value: what it prints, what it exits with, and the files it
leaves behind.
-/
import FoolLang.CommandLine
import FoolLang.Files

namespace FoolLang.CommandLine

/-- The files and the two streams of text so far. -/
structure Transcript where
  files : Files
  out : String
  err : String

namespace Transcript

/-- A host over a transcript, whose clock stands still. -/
def host : Host (StateM Transcript) where
  readText path := return ((← get).files.readText path).mapError (·.message)
  writeText path text := do
    match (← get).files.writeText path text with
    | .ok files =>
      modify fun t => { t with files }
      return .ok ()
    | .error e => return .error e.message
  out text := modify fun t => { t with out := t.out ++ text }
  err text := modify fun t => { t with err := t.err ++ text }
  clock := return 0

/-- The exit code and the transcript of the command on some files. -/
def ofCommand (limit : Nat) (files : Files) (args : List String) : UInt32 × Transcript :=
  (CommandLine.invoke host limit args).run ⟨files, "", ""⟩

end Transcript

end FoolLang.CommandLine
