/-
Instructions of the stack machine. Jumps name labels; a label stands in the code as a line of its
own. `Op` is the linked form, in which labels are gone and every target is a code address.
-/

namespace FoolLang.Machine

/--
The registers with instructions of their own: the return address, a temporary, the base of the
current frame, and the first free cell of the heap.
-/
inductive Register where
  | ra | tm | fp | hp
deriving DecidableEq, Repr

namespace Register

/-- The two letters of a register. -/
def name : Register → String
  | ra => "ra"
  | tm => "tm"
  | fp => "fp"
  | hp => "hp"

end Register

/-- Arithmetic on two popped words. -/
inductive Arith where
  | add | sub | mult | div
deriving DecidableEq, Repr

/-- Instructions without an operand. -/
inductive Plain where
  /-- Drops the top of the stack. -/
  | pop
  /-- Pops the right operand, then the left one, and pushes the result. -/
  | arith (a : Arith)
  /-- Pops an address, then a word, and stores the word at the address. -/
  | storeWord
  /-- Pops an address and pushes the word stored there. -/
  | loadWord
  /-- Pops a code address, saves the address of the next instruction in `ra` and jumps. -/
  | jumpSubroutine
  /-- Pushes a register. -/
  | load (r : Register)
  /-- Pops into a register. -/
  | store (r : Register)
  /-- Sets `fp` to the stack pointer. -/
  | copyFp
  /-- Records the top of the stack as output and leaves it there. -/
  | print
  | halt
deriving DecidableEq, Repr

namespace Plain

/-- The word by which an instruction is written. -/
def mnemonic : Plain → String
  | pop => "pop"
  | arith .add => "add"
  | arith .sub => "sub"
  | arith .mult => "mult"
  | arith .div => "div"
  | storeWord => "sw"
  | loadWord => "lw"
  | jumpSubroutine => "js"
  | load .ra => "lra"
  | load .tm => "ltm"
  | load .fp => "lfp"
  | load .hp => "lhp"
  | store .ra => "sra"
  | store .tm => "stm"
  | store .fp => "sfp"
  | store .hp => "shp"
  | copyFp => "cfp"
  | print => "print"
  | halt => "halt"

/-- Every instruction without an operand. -/
def all : List Plain :=
  [pop, arith .add, arith .sub, arith .mult, arith .div, storeWord, loadWord, jumpSubroutine,
    load .ra, store .ra, load .tm, store .tm, load .fp, store .fp, copyFp, load .hp, store .hp,
    print, halt]

/-- The instruction that a word stands for. -/
def ofMnemonic? (word : String) : Option Plain := all.find? fun p => p.mnemonic == word

theorem ofMnemonic?_mnemonic (p : Plain) : ofMnemonic? p.mnemonic = some p := by
  rcases p with _ | (_ | _ | _ | _) | _ | _ | _ | (_ | _ | _ | _) | (_ | _ | _ | _) | _ | _ | _ <;>
    decide

end Plain

/-- The jumps inside a routine: always, or on a comparison of two popped words. -/
inductive Jump where
  | always
  /-- Pops `b`, then `a`, and jumps if `a = b`. -/
  | ifEqual
  /-- Pops `b`, then `a`, and jumps if `a ≤ b`. -/
  | ifLessEqual
deriving DecidableEq, Repr

namespace Jump

/-- The word by which a jump is written. -/
def mnemonic : Jump → String
  | always => "b"
  | ifEqual => "beq"
  | ifLessEqual => "bleq"

/-- Every jump. -/
def all : List Jump := [always, ifEqual, ifLessEqual]

/-- The jump that a word stands for. -/
def ofMnemonic? (word : String) : Option Jump := all.find? fun j => j.mnemonic == word

theorem ofMnemonic?_mnemonic (j : Jump) : ofMnemonic? j.mnemonic = some j := by
  cases j <;> decide

end Jump

/-- One line of assembly. -/
inductive Instruction where
  | plain (p : Plain)
  | push (n : Int32)
  /-- Pushes the code address of a label. -/
  | pushLabel (label : String)
  | jump (j : Jump) (label : String)
  /-- Names the address of the instruction that follows. -/
  | label (name : String)
deriving DecidableEq, Repr

/-- The linked form of an instruction. -/
inductive Op where
  | plain (p : Plain)
  | push (n : Int32)
  | jump (j : Jump) (target : Nat)
deriving DecidableEq, Repr

end FoolLang.Machine
