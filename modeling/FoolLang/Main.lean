/-
The command as a program of the operating system.
-/
import FoolLang.CommandLine
import FoolLang.Files

namespace FoolLang.CommandLine

/-- The reason of a failed file operation. -/
def reason : IO.Error → String
  | .noFileOrDirectory .. => FileError.notFound.message
  | .inappropriateType .. => FileError.isADirectory.message
  | e => toString e

/-- A host over the file system and the standard streams. -/
def system : Host IO where
  readText path := do
    try
      let content ← IO.FS.readBinFile path
      match String.fromUTF8? content with
      | some text => return .ok text
      | none => return .error FileError.notText.message
    catch e => return .error (reason e)
  writeText path text := do
    try
      IO.FS.writeFile path text
      return .ok ()
    catch e => return .error (reason e)
  out text := IO.print text
  err text := IO.eprint text
  clock := IO.monoNanosNow

end FoolLang.CommandLine

/-- Runs the command on the arguments of the process, with a limit that no run reaches. -/
def main (args : List String) : IO UInt32 :=
  FoolLang.CommandLine.invoke FoolLang.CommandLine.system 4000000000000000000 args
