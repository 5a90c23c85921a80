/-
Linking: every label becomes the address of the instruction after it, the number of proper
instructions before it. A label defined twice is refused first, then one that is not defined.
-/
import FoolLang.Machine.Instruction

namespace FoolLang.Machine

/-- Why a program cannot be linked. -/
inductive LinkError where
  | unknownLabel (label : String)
  | duplicateLabel (label : String)
deriving DecidableEq, Repr

/-- The wording of a link error. -/
def LinkError.message : LinkError → String
  | .unknownLabel l => s!"unknown label {l}"
  | .duplicateLabel l => s!"label {l} defined twice"

/-- The labels of a program with their addresses, the first instruction having the one given. -/
def labels : List Instruction → Nat → List (String × Nat)
  | [], _ => []
  | .label l :: code, n => (l, n) :: labels code n
  | .plain _ :: code, n | .push _ :: code, n | .pushLabel _ :: code, n | .jump _ _ :: code, n =>
    labels code (n + 1)

/-- The first element that repeats an earlier one, or one of those already seen. -/
def firstRepeated? : List String → List String → Option String
  | [], _ => none
  | l :: ls, seen => if l ∈ seen then some l else firstRepeated? ls (l :: seen)

/-- The address of a label in a table. -/
def address (table : List (String × Nat)) (label : String) : Except LinkError Nat :=
  match table.lookup label with
  | some a => .ok a
  | none => .error (.unknownLabel label)

/-- The linked form of a program under a table of labels. -/
def resolveLabels (table : List (String × Nat)) : List Instruction → Except LinkError (List Op)
  | [] => .ok []
  | .label _ :: code => resolveLabels table code
  | .plain p :: code => return .plain p :: (← resolveLabels table code)
  | .push n :: code => return .push n :: (← resolveLabels table code)
  | .pushLabel l :: code => do
    let a ← address table l
    return .push (Int32.ofNat a) :: (← resolveLabels table code)
  | .jump j l :: code => do
    let a ← address table l
    return .jump j a :: (← resolveLabels table code)

/-- Links a program. -/
def link (code : List Instruction) : Except LinkError (Array Op) :=
  let table := labels code 0
  match firstRepeated? (table.map (·.1)) [] with
  | some l => .error (.duplicateLabel l)
  | none => (resolveLabels table code).map List.toArray

end FoolLang.Machine
