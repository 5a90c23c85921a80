/-
Lowering: from a decorated tree to instructions. An expression becomes code that leaves its value
on the stack; the code of a routine is put aside and stands after the main code. A frame holds, from
its base upward, the static link and the arguments, and downward the return address and the local
declarations; the outermost frame stands at a fixed place, the top of the memory.
-/
import FoolLang.Diagnostic
import FoolLang.Machine.Instruction
import FoolLang.Machine.Run
import FoolLang.Scope.Table
import FoolLang.Tree

namespace FoolLang

open Machine

/-- What a lowering has drawn and put aside so far. -/
structure CodeBuffer where
  labelCount : Nat
  routineCount : Nat
  /-- The routines lowered so far. -/
  routines : List Instruction
  /-- The entry labels of methods by class and name. -/
  methodLabels : Table (String × String) String

namespace CodeBuffer

/-- The buffer at the start. -/
def empty : CodeBuffer := ⟨0, 0, [], .empty⟩

end CodeBuffer

/-- A lowering: it fails at an undecorated node, and keeps what it has put aside by then. -/
abbrev Lowering := EStateM Diagnostic CodeBuffer

namespace Lowering

/-- A new label for a jump inside a routine. -/
def freshLabel : Lowering String := do
  let b ← get
  set { b with labelCount := b.labelCount + 1 }
  return s!"label{b.labelCount}"

/-- A new label for the entry of a routine. -/
def freshRoutineLabel : Lowering String := do
  let b ← get
  set { b with routineCount := b.routineCount + 1 }
  return s!"function{b.routineCount}"

/-- Puts code aside. -/
def putCode (code : List Instruction) : Lowering Unit :=
  modify fun b => { b with routines := b.routines ++ code }

/-- Notes the entry label of a method. -/
def recordMethodLabel (c method label : String) : Lowering Unit :=
  modify fun b => { b with methodLabels := b.methodLabels.put (c, method) label }

/-- The entry label of a method. -/
def methodLabel? (c method : String) : Lowering (Option String) :=
  return (← get).methodLabels.get? (c, method)

/-- Hands over the code put aside. -/
def takeCode : Lowering (List Instruction) := do
  let b ← get
  set { b with routines := [] }
  return b.routines

/-- The decoration of a node, which has to be there. -/
def decoration {α : Type} (node : String) (line : Nat) : Option α → Lowering α
  | some a => return a
  | none => throw ⟨.undecoratedNode node, line⟩

end Lowering

namespace Code

/-- Pushes a register. -/
def load (r : Register) : Instruction := .plain (.load r)

/-- Pops into a register. -/
def store (r : Register) : Instruction := .plain (.store r)

/-- Adds a constant to the top of the stack. -/
def addConst (n : Int32) : List Instruction := [.push n, .plain (.arith .add)]

/-- Moves the top of the stack to the heap. -/
def allocate : List Instruction :=
  [load .hp, .plain .storeWord, load .hp] ++ addConst 1 ++ [store .hp]

/-- The address of a slot of the outermost frame. -/
def outermostSlot (offset : Int32) : Int32 := stackBase + offset

/-- Pushes the base of the frame that holds a binding, as seen from a use. -/
def frameOf (r : Resolution) : List Instruction :=
  if r.entry.level = 0 then [.push stackBase]
  else load .fp :: List.replicate r.hops (.plain .loadWord)

/-- Pushes the content of the slot of a binding, as seen from a use. -/
def slotOf (r : Resolution) : List Instruction :=
  if r.entry.level = 0 then [.push (outermostSlot r.entry.offset), .plain .loadWord]
  else frameOf r ++ addConst r.entry.offset ++ [.plain .loadWord]

/-- Leaves the static link on the stack twice: one for the frame, one to find the routine by. -/
def duplicate : List Instruction := [store .tm, load .tm, load .tm]

/-- Turns the address of a table on the stack into the routine in a slot of it, and calls that. -/
def callSlot (offset : Int32) : List Instruction :=
  addConst offset ++ [.plain .loadWord, .plain .jumpSubroutine]

/-- Pushes 1 where a jump to the first label was taken, 0 where it was not. -/
def select (ok done : String) : List Instruction :=
  [.push 0, .jump .always done, .label ok, .push 1, .label done]

/--
Swaps the two words on top of the stack, through the temporary register and the free cell at the
end of the heap.
-/
def swap : List Instruction :=
  [store .tm, load .hp, .plain .storeWord, load .tm, load .hp, .plain .loadWord]

/-- Jumps if a comparison holds between the two words on top of the stack. -/
def compare (op : BinaryOp) (ok : String) : List Instruction :=
  match op with
  | .equal => [.jump .ifEqual ok]
  | .greaterEqual => swap ++ [.jump .ifLessEqual ok]
  | _ => [.jump .ifLessEqual ok]

/-- The code of a routine. -/
def routine (label : String) (params : Nat) (locals : List Instruction) (localCount : Nat)
    (body : List Instruction) : List Instruction :=
  [.label label, .plain .copyFp, load .ra] ++ locals ++ body ++ [store .tm] ++
    List.replicate localCount (.plain .pop) ++ [store .ra, .plain .pop] ++
    List.replicate params (.plain .pop) ++
    [store .fp, load .tm, load .ra, .plain .jumpSubroutine]

/-- Puts the addresses of routines on the heap and pushes where the first of them stands. -/
def dispatchTable (labels : List String) : List Instruction :=
  load .hp :: labels.flatMap fun l => .pushLabel l :: allocate

/--
Makes an object of the fields on the stack, the last of which is on top, and of the dispatch table
in a slot of the outermost frame; pushes its address.
-/
def object (fieldCount : Nat) (offset : Int32) : List Instruction :=
  (List.replicate fieldCount allocate).flatten ++
    [.push (outermostSlot offset), .plain .loadWord, load .hp, .plain .storeWord, load .hp,
      load .hp] ++ addConst 1 ++ [store .hp]

end Code

/-- The instruction of an operator on integers. -/
def BinaryOp.arith? : BinaryOp → Option Arith
  | .plus => some .add
  | .minus => some .sub
  | .times => some .mult
  | .div => some .div
  | _ => none

mutual

/-- Code that leaves the value of an expression on the stack. -/
def Expr.lower : Expr → Lowering (List Instruction)
  | .int v _ => return [.push v]
  | .bool v _ => return [.push (if v then 1 else 0)]
  | .null _ => return [.push (-1)]
  | .binary .and a b _ => do
    let short ← Lowering.freshLabel
    let done ← Lowering.freshLabel
    let left ← a.lower
    let right ← b.lower
    return left ++ [.push 0, .jump .ifEqual short] ++ right ++
      [.push 0, .jump .ifEqual short, .push 1, .jump .always done, .label short, .push 0,
        .label done]
  | .binary .or a b _ => do
    let short ← Lowering.freshLabel
    let done ← Lowering.freshLabel
    let left ← a.lower
    let right ← b.lower
    return left ++ [.push 1, .jump .ifEqual short] ++ right ++
      [.push 1, .jump .ifEqual short, .push 0, .jump .always done, .label short, .push 1,
        .label done]
  | .binary op a b _ => do
    match op.arith? with
    | some i =>
      let left ← a.lower
      let right ← b.lower
      return left ++ right ++ [.plain (.arith i)]
    | none =>
      let ok ← Lowering.freshLabel
      let done ← Lowering.freshLabel
      let left ← a.lower
      let right ← b.lower
      return left ++ right ++ Code.compare op ok ++ Code.select ok done
  | .not e _ => do
    let code ← e.lower
    return [.push 1] ++ code ++ [.plain (.arith .sub)]
  | .cond c a b _ => do
    let thenLabel ← Lowering.freshLabel
    let done ← Lowering.freshLabel
    let condition ← c.lower
    let elseCode ← b.lower
    let thenCode ← a.lower
    return condition ++ [.push 1, .jump .ifEqual thenLabel] ++ elseCode ++
      [.jump .always done, .label thenLabel] ++ thenCode ++ [.label done]
  | .print e _ => do
    let code ← e.lower
    return code ++ [.plain .print]
  | .id name r l => do
    let r ← Lowering.decoration s!"identifier {name}" l r
    return Code.slotOf r
  | .call name args r l => do
    let r ← Lowering.decoration s!"call of {name}" l r
    let args ← Expr.lowerReversed args
    let dispatch := if r.entry.isMethod then [.plain .loadWord] else []
    return [Code.load .fp] ++ args ++ Code.frameOf r ++ Code.duplicate ++ dispatch ++
      Code.callSlot r.entry.offset
  | .new c args r l => do
    let r ← Lowering.decoration s!"instantiation of {c}" l r
    let fields ← Expr.lowerAll args
    return fields ++ Code.object args.length r.entry.offset
  | .methodCall receiver method args b l => do
    let b ← Lowering.decoration s!"method call of {method}" l b
    let args ← Expr.lowerReversed args
    let object ← receiver.lower
    return [Code.load .fp] ++ args ++ object ++ Code.duplicate ++ [.plain .loadWord] ++
      Code.callSlot b.offset

/-- Code that leaves the values of some expressions on the stack, the last one on top. -/
def Expr.lowerAll : List Expr → Lowering (List Instruction)
  | [] => return []
  | e :: es => do
    let code ← e.lower
    return code ++ (← Expr.lowerAll es)

/-- Code that leaves the values of some expressions on the stack, the first one on top. -/
def Expr.lowerReversed : List Expr → Lowering (List Instruction)
  | [] => return []
  | e :: es => do
    let more ← Expr.lowerReversed es
    return more ++ (← e.lower)

end

mutual

/--
Code that leaves the value of a declaration on the stack: that of a variable, or the address of the
routine of a function. The functions inside a function are lowered before it.
-/
def Decl.lower : Decl → Lowering (List Instruction)
  | .var _ _ value _ => value.lower
  | .function header locals body => do
    let localCode ← Decl.lowerAll locals
    let label ← Lowering.freshRoutineLabel
    let code ← body.lower
    Lowering.putCode
      (Code.routine label header.params.length localCode locals.length code)
    return [.pushLabel label]

/-- Code that leaves the values of some declarations on the stack. -/
def Decl.lowerAll : List Decl → Lowering (List Instruction)
  | [] => return []
  | d :: ds => do
    let code ← d.lower
    return code ++ (← Decl.lowerAll ds)

end

/-- Lowers a method; gives the label of its entry, which is drawn before its inside is lowered. -/
def Method.lower (m : Method) : Lowering String := do
  let label ← Lowering.freshRoutineLabel
  let localCode ← Decl.lowerAll m.locals
  let code ← m.body.lower
  Lowering.putCode
    (Code.routine label m.header.params.length localCode m.locals.length code)
  return label

namespace ClassDecl

/-- Lowers methods of a class; gives the slots with their labels. -/
def lowerMethods (c : String) : List Method → Lowering (List (Int32 × String))
  | [] => return []
  | m :: ms => do
    let slot ← Lowering.decoration s!"method {c}.{m.header.name}" m.header.line m.slot
    let label ← m.lower
    Lowering.recordMethodLabel c m.header.name label
    return (slot, label) :: (← lowerMethods c ms)

/-- Lowers a class to code that builds its dispatch table, in the order of the slots. -/
def lower (c : ClassDecl) : Lowering (List Instruction) := do
  let slots ← lowerMethods c.name c.methods
  let sorted := slots.mergeSort fun a b => decide (a.1 ≤ b.1)
  return Code.dispatchTable (sorted.map (·.2))

/-- Lowers classes one after the other. -/
def lowerAll : List ClassDecl → Lowering (List Instruction)
  | [] => return []
  | c :: cs => do
    let code ← c.lower
    return code ++ (← lowerAll cs)

end ClassDecl

namespace Program

/--
The main code of a program, up to its halt. The declarations of a program stand in a frame of their
own, whose first slot takes the place of a return address.
-/
def lowerMain : Program → Lowering (List Instruction)
  | letIn classes decls body => do
    let classCode ← ClassDecl.lowerAll classes
    let declCode ← Decl.lowerAll decls
    let code ← body.lower
    return [.push 0] ++ classCode ++ declCode ++ code ++ [.plain .halt]
  | expr body => do
    let code ← body.lower
    return code ++ [.plain .halt]

/-- The whole code of a program: the main code, then the routines. -/
def lowerParts (p : Program) : Lowering (List Instruction) := do
  let main ← p.lowerMain
  return main ++ (← Lowering.takeCode)

/-- The code of a decorated program. -/
def lower (p : Program) : Except Diagnostic (List Instruction) :=
  match p.lowerParts.run .empty with
  | .ok code _ => .ok code
  | .error d _ => .error d

end Program

end FoolLang
