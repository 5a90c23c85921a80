/-
The command line: compiles a file, writes the assembly beside it or where it is told to, and runs
the code. It speaks to its surroundings through a host, so that it can be run on files on a disk as
well as on files that are a value.
-/
import FoolLang.Compile
import FoolLang.Diagnostic.Listing
import FoolLang.Files.Path
import FoolLang.Machine.Assembly
import FoolLang.Text.Duration

namespace FoolLang.CommandLine

/-- What the arguments ask for. -/
structure Options where
  source : String
  asm : Option String
  run : Bool
deriving DecidableEq, Repr

/-- Why the arguments cannot be understood. -/
inductive UsageError where
  | noOutputPath
  | unexpectedArgument (arg : String)
  | noSource
deriving DecidableEq, Repr

/-- The wording of a usage error. -/
def UsageError.message : UsageError → String
  | .noOutputPath => "--asm needs an output path"
  | .unexpectedArgument arg => s!"unexpected argument `{arg}`"
  | .noSource => "no source file given"

/-- How the command is used. -/
def usage : String := "usage: fool <file.fool> [--asm <out>] [--no-run]"

/-- Reads the arguments that follow those already understood. -/
def parseFrom (source asm : Option String) (run : Bool) :
    List String → Except UsageError Options
  | [] =>
    match source with
    | some source => .ok { source, asm, run }
    | none => .error .noSource
  | arg :: more =>
    if arg = "--asm" then
      match more with
      | [] => .error .noOutputPath
      | path :: more => parseFrom source (some path) run more
    else if arg = "--no-run" then parseFrom source asm false more
    else
      match source with
      | none => parseFrom (some arg) asm run more
      | some _ => .error (.unexpectedArgument arg)

/-- Reads the arguments. -/
def parse (args : List String) : Except UsageError Options := parseFrom none none true args

/-- The surroundings of the command: files, two streams of text, and a clock in nanoseconds. -/
structure Host (m : Type → Type) where
  readText : String → m (Except String String)
  writeText : String → String → m (Except String Unit)
  out : String → m Unit
  err : String → m Unit
  clock : m Nat

variable {m : Type → Type} [Monad m]

/-- Runs code and reports how that ends. -/
def runCode (host : Host m) (limit : Nat) (code : List Machine.Instruction) : m UInt32 := do
  let start ← host.clock
  match execute limit code with
  | .ok result =>
    for value in result.output do
      host.out s!"{Text.ofInt32 value}\n"
    let elapsed := (← host.clock) - start
    host.out s!"Ran in {Text.duration elapsed}\n"
    match result.top with
    | some top => host.out s!"Result: {Text.ofInt32 top}\n"
    | none => host.out "Result: <empty stack>\n"
    return 0
  | .error failure =>
    host.err s!"Error: {failure.reason}\n"
    return 1

/-- Does what the arguments ask for. -/
def perform (host : Host m) (limit : Nat) (options : Options) : m UInt32 := do
  let file := (Path.fileName? options.source).getD options.source
  match ← host.readText options.source with
  | .error reason =>
    host.err s!"Failed to read {options.source}: {reason}\n"
    return 2
  | .ok source =>
    let start ← host.clock
    match compile source with
    | .error problems =>
      for d in problems do
        host.out (d.listing file source)
      host.out s!"{problems.length} error(s) found\n"
      return 1
    | .ok code =>
      let elapsed := (← host.clock) - start
      host.out s!"Compiled in {Text.duration elapsed}\n"
      let asm := options.asm.getD (Path.withExtension options.source "asm")
      match ← host.writeText asm (Machine.Assembly.render code) with
      | .error reason =>
        host.err s!"Failed to write {asm}: {reason}\n"
        return 2
      | .ok () =>
        host.out s!"Wrote {asm}\n"
        if options.run then runCode host limit code else return 0

/-- Runs the command with its arguments and gives its exit code. -/
def invoke (host : Host m) (limit : Nat) (args : List String) : m UInt32 := do
  match parse args with
  | .ok options => perform host limit options
  | .error e =>
    host.err s!"{e.message}\n{usage}\n"
    return 2

end FoolLang.CommandLine
