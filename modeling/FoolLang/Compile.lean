/-
From program text to code and to the end of a run. Compilation stops at the first problem of
reading; the problems of resolution and of typing are reported together, in that order.
-/
import FoolLang.Grammar.Declaration
import FoolLang.Lowering
import FoolLang.Machine.Link
import FoolLang.Scope.Resolve
import FoolLang.Token.Scan
import FoolLang.Typing

namespace FoolLang

/-- The tree of a program text. -/
def Program.ofSource (source : String) : Except Diagnostic Program := do
  let tokens ← Token.ofSource source
  match Program.ofTokens tokens with
  | .ok p _ => return p
  | .error d _ => throw d

/-- The code of a program text, or everything that is wrong with it. -/
def compile (source : String) : Except (List Diagnostic) (List Machine.Instruction) := do
  let tree ← (Program.ofSource source).mapError ([·])
  let (program, scope) := tree.resolve
  match scope.problems ++ program.typeProblems with
  | [] => program.lower.mapError ([·])
  | problems => throw problems

/-- Why a run of a program text has no result. -/
inductive RunFailure where
  | compile (problems : List Diagnostic)
  | link (e : Machine.LinkError)
  | fault (f : Machine.Fault)
  /-- The number of instructions allowed was used up. -/
  | unfinished
deriving DecidableEq

namespace RunFailure

/-- The reason of a failure. -/
def reason : RunFailure → String
  | compile problems => s!"compilation failed with {problems.length} error(s)"
  | link e => e.message
  | fault f => f.message
  | unfinished => "the program did not end in the time allowed"

/-- The wording of a failure, which tells those of a run from those before it. -/
def message (e : RunFailure) : String :=
  match e with
  | compile _ => e.reason
  | link _ | fault _ | unfinished => s!"runtime error: {e.reason}"

end RunFailure

/-- Links and runs code for a limited number of instructions. -/
def execute (limit : Nat) (code : List Machine.Instruction) :
    Except RunFailure Machine.Result := do
  let ops ← (Machine.link code).mapError .link
  match (Machine.run ops limit .initial).1 with
  | .halted r => return r
  | .faulted f => throw (.fault f)
  | .unfinished => throw .unfinished

/-- Compiles a program text and runs it for a limited number of instructions. -/
def run (limit : Nat) (source : String) : Except RunFailure Machine.Result := do
  let code ← (compile source).mapError .compile
  execute limit code

end FoolLang
