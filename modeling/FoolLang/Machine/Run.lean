/-
The stack machine: 10000 words of memory shared by the stack, which grows down from the top, and
the heap, which grows up from 0. `step` executes one instruction, `run` a bounded number of them.
A fault leaves the state as the failing instruction left it, so that a machine can be run on.
-/
import FoolLang.Machine.Instruction
import FoolLang.Text.Numeral

namespace FoolLang.Machine

/-- The number of memory cells. -/
def memSize : Nat := 10000

/-- The address just above the memory, where an empty stack points. -/
def stackBase : Int32 := Int32.ofNat memSize

/-- Why an instruction cannot be executed. -/
inductive Fault where
  | stackOverflow (sp hp : Int32)
  | outOfBounds (address : Int32)
  | divisionByZero (address : Nat)
  | invalidJump (address : Int32)
  | endOfCode
deriving DecidableEq, Repr

/-- The wording of a fault. -/
def Fault.message : Fault → String
  | .stackOverflow sp hp =>
    s!"stack overflow: stack pointer {Text.ofInt32 sp} reached the heap at {Text.ofInt32 hp}"
  | .outOfBounds a => s!"memory access out of bounds at address {Text.ofInt32 a}"
  | .divisionByZero a => s!"division by zero at code address {a}"
  | .invalidJump a => s!"jump to {Text.ofInt32 a}, outside of the code"
  | .endOfCode => "execution ran past the end of the code without halting"

/-- Memory, registers and the output printed since the last halt. -/
structure State where
  memory : Vector Int32 memSize
  ip : Nat
  sp : Int32
  fp : Int32
  hp : Int32
  ra : Int32
  tm : Int32
  output : Array Int32

/-- The state before the first instruction. -/
def State.initial : State where
  memory := Vector.replicate memSize 0
  ip := 0
  sp := stackBase
  fp := stackBase
  hp := 0
  ra := 0
  tm := 0
  output := #[]

/-- The output of a program that halted, and the top of its stack unless that is empty. -/
structure Result where
  output : List Int32
  top : Option Int32
deriving DecidableEq, Repr

/-- An action of the machine: it changes the state, also where it fails. -/
abbrev Act := EStateM Fault State

/-- The memory cell at an address. -/
def cell? (a : Int32) : Option (Fin memSize) :=
  if h : 0 ≤ a.toInt ∧ a.toInt.toNat < memSize then some ⟨a.toInt.toNat, h.2⟩ else none

/-- The content of the cell at an address. -/
def State.word? (s : State) (a : Int32) : Option Int32 := (cell? a).map fun i => s.memory[i]

/-- Reads a cell. -/
def read (a : Int32) : Act Int32 := do
  match (← get).word? a with
  | some v => return v
  | none => throw (.outOfBounds a)

/-- Writes a cell. -/
def write (a v : Int32) : Act Unit := do
  match cell? a with
  | some i => modify fun s => { s with memory := s.memory.set i v i.isLt }
  | none => throw (.outOfBounds a)

/-- Pushes a word, unless the stack would grow into the heap. -/
def push (v : Int32) : Act Unit := do
  let s ← get
  if s.sp - 1 < s.hp then throw (.stackOverflow s.sp s.hp)
  else
    let a := s.sp - 1
    set { s with sp := a }
    write a v

/-- Pops a word. -/
def pop : Act Int32 := do
  let v ← read (← get).sp
  modify fun s => { s with sp := s.sp + 1 }
  return v

/-- Pops the right operand, then the left one; gives the left one first. -/
def popOperands : Act (Int32 × Int32) := do
  let b ← pop
  let a ← pop
  return (a, b)

/-- Goes on at a code address, which has to lie within the code. -/
def jumpTo (size : Nat) (a : Int32) : Act Unit := do
  if 0 ≤ a.toInt ∧ a.toInt.toNat < size then modify fun s => { s with ip := a.toInt.toNat }
  else throw (.invalidJump a)

/-- The content of a register. -/
def State.register (s : State) : Register → Int32
  | .ra => s.ra
  | .tm => s.tm
  | .fp => s.fp
  | .hp => s.hp

/-- The state with a register changed. -/
def State.setRegister (s : State) (v : Int32) : Register → State
  | .ra => { s with ra := v }
  | .tm => { s with tm := v }
  | .fp => { s with fp := v }
  | .hp => { s with hp := v }

/-- Wrapping arithmetic; a quotient is cut toward zero. -/
def Arith.apply : Arith → Int32 → Int32 → Int32
  | .add, a, b => a + b
  | .sub, a, b => a - b
  | .mult, a, b => a * b
  | .div, a, b => a / b

/-- Whether a jump on two words is taken. -/
def Jump.taken : Jump → Int32 → Int32 → Bool
  | .always, _, _ => true
  | .ifEqual, a, b => a == b
  | .ifLessEqual, a, b => a ≤ b

/--
What a halting machine hands over; its output is handed over once. The top is none where the stack is empty. It is none
here at a negative stack pointer as well, which a refused push can leave behind: there is no cell to read there, and a
machine that does not check for this breaks off instead of halting.
-/
def halt : Act Result := do
  let s ← get
  set { s with output := #[] }
  return { output := s.output.toList, top := s.word? s.sp }

/--
Executes an instruction without an operand, found at an address of a code of some size. The
instruction pointer has moved on already.
-/
def Plain.execute (size here : Nat) : Plain → Act (Option Result)
  | .pop => do
    let _ ← Machine.pop
    return none
  | .arith a => do
    let (l, r) ← popOperands
    if a = .div ∧ r = 0 then throw (.divisionByZero here)
    push (a.apply l r)
    return none
  | .storeWord => do
    let a ← Machine.pop
    let v ← Machine.pop
    write a v
    return none
  | .loadWord => do
    let a ← Machine.pop
    push (← read a)
    return none
  | .jumpSubroutine => do
    let a ← Machine.pop
    modify fun s => { s with ra := Int32.ofNat s.ip }
    jumpTo size a
    return none
  | .load r => do
    push ((← get).register r)
    return none
  | .store r => do
    let v ← Machine.pop
    modify fun s => s.setRegister v r
    return none
  | .copyFp => do
    modify fun s => { s with fp := s.sp }
    return none
  | .print => do
    let v ← read (← get).sp
    modify fun s => { s with output := s.output.push v }
    return none
  | .halt => do
    return some (← Machine.halt)

/-- Executes an instruction. -/
def Op.execute (size here : Nat) : Op → Act (Option Result)
  | .plain p => p.execute size here
  | .push n => do
    Machine.push n
    return none
  | .jump .always target => do
    modify fun s => { s with ip := target }
    return none
  | .jump j target => do
    let (a, b) ← popOperands
    if j.taken a b then modify fun s => { s with ip := target }
    return none

/-- Executes the instruction at the instruction pointer. -/
def step (code : Array Op) : Act (Option Result) := do
  let here := (← get).ip
  match code[here]? with
  | none => throw .endOfCode
  | some op =>
    modify fun s => { s with ip := here + 1 }
    op.execute code.size here

/-- How a run ends. -/
inductive Outcome where
  | halted (r : Result)
  | faulted (f : Fault)
  /-- The number of instructions allowed was used up. -/
  | unfinished
deriving DecidableEq, Repr

/-- Runs until a halt or a fault, for a limited number of instructions. -/
def run (code : Array Op) : Nat → State → Outcome × State
  | 0, s => (.unfinished, s)
  | n + 1, s =>
    match step code s with
    | .ok none s' => run code n s'
    | .ok (some r) s' => (.halted r, s')
    | .error f s' => (.faulted f, s')

end FoolLang.Machine
