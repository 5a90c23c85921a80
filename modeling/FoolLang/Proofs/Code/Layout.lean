/-
Where the code of a program stands, told from its tree: how many instructions the code of each part
has, at which addresses the code of each expression begins and ends, and which instructions stand
there. Labels are gone; the routines of a program follow the main code, inner ones before outer ones.
-/
import FoolLang.Lowering
import FoolLang.Proofs.Semantics.Evaluation

namespace FoolLang

open Machine

/-! ## Sizes -/

/-- The instructions of an operator behind the code of both operands, from an address on. -/
def BinaryOp.tail (op : BinaryOp) (p : Nat) : List Op :=
  match op with
  | .plus => [.plain (.arith .add)]
  | .minus => [.plain (.arith .sub)]
  | .times => [.plain (.arith .mult)]
  | .div => [.plain (.arith .div)]
  | .equal => [.jump .ifEqual (p + 3), .push 0, .jump .always (p + 4), .push 1]
  | .lessEqual => [.jump .ifLessEqual (p + 3), .push 0, .jump .always (p + 4), .push 1]
  | .greaterEqual =>
    [.plain (.store .tm), .plain (.load .hp), .plain .storeWord, .plain (.load .tm),
      .plain (.load .hp), .plain .loadWord, .jump .ifLessEqual (p + 9), .push 0,
      .jump .always (p + 10), .push 1]
  | .and | .or => []

namespace Code

/-- The linked form of code without labels. -/
def ops (code : List Instruction) : List Op :=
  code.filterMap fun
    | .plain p => some (.plain p)
    | .push n => some (.push n)
    | _ => none

theorem ops_append (xs ys : List Instruction) : ops (xs ++ ys) = ops xs ++ ops ys := List.filterMap_append

/-- The code of a call behind that of its arguments. -/
def callOf (r : Resolution) : List Instruction :=
  frameOf r ++ duplicate ++ (if r.entry.isMethod then [.plain .loadWord] else []) ++
    callSlot r.entry.offset

/-- The code of a method call behind that of its receiver. -/
def sendTo (slot : Int32) : List Instruction := duplicate ++ [.plain .loadWord] ++ callSlot slot

/-- The end of a routine, behind the code of its body. -/
def epilogue (params locals : Nat) : List Instruction :=
  [store .tm] ++ List.replicate locals (.plain .pop) ++ [store .ra, .plain .pop] ++
    List.replicate params (.plain .pop) ++ [store .fp, load .tm, load .ra, .plain .jumpSubroutine]

end Code

mutual

/-- How many instructions the code of an expression has. -/
def Expr.size : Expr → Nat
  | .int _ _ | .bool _ _ | .null _ => 1
  | .binary .and a b _ | .binary .or a b _ => a.size + 2 + b.size + 5
  | .binary op a b _ => a.size + b.size + (op.tail 0).length
  | .not e _ => 1 + e.size + 1
  | .cond c a b _ => c.size + 2 + b.size + 1 + a.size
  | .print e _ => e.size + 1
  | .id _ r _ => r.elim 1 fun r => (Code.slotOf r).length
  | .call _ args r _ => 1 + Expr.sizeAll args + (r.elim [] Code.callOf).length
  | .new _ args r _ =>
    Expr.sizeAll args + r.elim 1 fun r => (Code.object args.length r.entry.offset).length
  | .methodCall receiver _ args b _ =>
    1 + Expr.sizeAll args + receiver.size + (b.elim [] fun b => Code.sendTo b.offset).length

/-- How many instructions the code of some expressions has. -/
def Expr.sizeAll : List Expr → Nat
  | [] => 0
  | e :: es => e.size + Expr.sizeAll es

end

/-- How many instructions stand for a declaration where it is declared. -/
def Decl.size : Decl → Nat
  | .var _ _ value _ => value.size
  | .function _ _ _ => 1

/-- How many instructions stand for some declarations. -/
def Decl.sizeAll (ds : List Decl) : Nat := (ds.map Decl.size).sum

namespace Routine

/-- How many instructions a routine has in front of its end. -/
def bodySize (r : Routine) : Nat := 2 + Decl.sizeAll r.locals + r.body.size

/-- How many instructions a routine has. -/
def size (r : Routine) : Nat := r.bodySize + (Code.epilogue r.params.length r.locals.length).length

end Routine

/-- How many instructions build the dispatch table of a class. -/
def ClassDecl.size (c : ClassDecl) : Nat := 1 + 7 * c.methods.length

/-! ## Routines -/

mutual

/-- The routines of a declaration, inner ones first. -/
def Decl.routines : Decl → List Routine
  | .var _ _ _ _ => []
  | .function header locals body => Decl.routinesAll locals ++ [⟨header.params, locals, body⟩]

/-- The routines of some declarations. -/
def Decl.routinesAll : List Decl → List Routine
  | [] => []
  | d :: ds => d.routines ++ Decl.routinesAll ds

end

/-- The routines of a method, itself last. -/
def Method.routines (m : Method) : List Routine := Decl.routinesAll m.locals ++ [m.routine]

/-- Routines with the addresses at which they stand, one behind the other from an address on. -/
def Routine.place : Nat → List Routine → List (Nat × Routine)
  | _, [] => []
  | a, r :: rs => (a, r) :: Routine.place (a + r.size) rs

namespace Program

/-- Where the declarations of a program begin: behind their fake return address and the tables. -/
def declsStart : Program → Nat
  | letIn classes _ _ => 1 + (classes.map ClassDecl.size).sum
  | expr _ => 0

/-- Where the body of a program begins. -/
def bodyStart (p : Program) : Nat := p.declsStart + Decl.sizeAll p.decls

/-- How many instructions the main code of a program has, its halt included. -/
def mainSize (p : Program) : Nat := p.bodyStart + p.body.size + 1

/-- The routines of a program in the order of their code. -/
def routines (p : Program) : List Routine :=
  (p.classes.flatMap fun c => c.methods.flatMap Method.routines) ++ Decl.routinesAll p.decls

/-- The routines of a program with their addresses. -/
def placed (p : Program) : List (Nat × Routine) := Routine.place p.mainSize p.routines

end Program

/-! ## Expressions in the code -/

/-- An expression of a program and the address at which its code begins. -/
structure Spot where
  expr : Expr
  start : Nat

/-- Where the code of an expression ends. -/
def Spot.stop (s : Spot) : Nat := s.start + s.expr.size

mutual

/-- An expression whose code begins at an address, and those in it. -/
def Expr.spots (a : Nat) : Expr → List Spot
  | .int v l => [⟨.int v l, a⟩]
  | .bool b l => [⟨.bool b l, a⟩]
  | .null l => [⟨.null l, a⟩]
  | .binary .and x y l =>
    ⟨.binary .and x y l, a⟩ :: (x.spots a ++ y.spots (a + x.size + 2))
  | .binary .or x y l => ⟨.binary .or x y l, a⟩ :: (x.spots a ++ y.spots (a + x.size + 2))
  | .binary op x y l => ⟨.binary op x y l, a⟩ :: (x.spots a ++ y.spots (a + x.size))
  | .not e l => ⟨.not e l, a⟩ :: e.spots (a + 1)
  | .cond c x y l =>
    ⟨.cond c x y l, a⟩ ::
      (c.spots a ++ y.spots (a + c.size + 2) ++ x.spots (a + c.size + 2 + y.size + 1))
  | .print e l => ⟨.print e l, a⟩ :: e.spots a
  | .id name r l => [⟨.id name r l, a⟩]
  | .call name args r l => ⟨.call name args r l, a⟩ :: Expr.spotsReversed (a + 1) args
  | .new c args r l => ⟨.new c args r l, a⟩ :: Expr.spotsAll a args
  | .methodCall receiver method args b l =>
    ⟨.methodCall receiver method args b l, a⟩ ::
      (Expr.spotsReversed (a + 1) args ++ receiver.spots (a + 1 + Expr.sizeAll args))

/-- The expressions in some whose code stands in their order. -/
def Expr.spotsAll (a : Nat) : List Expr → List Spot
  | [] => []
  | e :: es => e.spots a ++ Expr.spotsAll (a + e.size) es

/-- The expressions in some whose code stands in the reverse order. -/
def Expr.spotsReversed (a : Nat) : List Expr → List Spot
  | [] => []
  | e :: es => Expr.spotsReversed a es ++ e.spots (a + Expr.sizeAll es)

end

/-- The expressions in some declarations. -/
def Decl.spotsAll (a : Nat) : List Decl → List Spot
  | [] => []
  | .var _ _ value _ :: ds => value.spots a ++ Decl.spotsAll (a + value.size) ds
  | .function _ _ _ :: ds => Decl.spotsAll (a + 1) ds

/-- The expressions in a routine, without the routines in it. -/
def Routine.spots (a : Nat) (r : Routine) : List Spot :=
  Decl.spotsAll (a + 2) r.locals ++ r.body.spots (a + 2 + Decl.sizeAll r.locals)

/-- The expressions in a program with the addresses at which their code begins. -/
def Program.spots (p : Program) : List Spot :=
  Decl.spotsAll p.declsStart p.decls ++ p.body.spots p.bodyStart ++
    p.placed.flatMap fun x => x.2.spots x.1

/-! ## What stands in the code -/

/-- Some instructions stand in code from an address on. -/
def Stands (code : Array Op) (a : Nat) : List Op → Prop
  | [] => True
  | op :: more => code[a]? = some op ∧ Stands code (a + 1) more

theorem stands_append {code : Array Op} (xs ys : List Op) : ∀ a,
    Stands code a (xs ++ ys) ↔ Stands code a xs ∧ Stands code (a + xs.length) ys := by
  induction xs with
  | nil => intro a; simp [Stands]
  | cons op xs ih =>
    intro a
    rw [List.cons_append, Stands, Stands, ih, and_assoc, List.length_cons, Nat.add_assoc, Nat.add_comm 1]

section

variable (code : Array Op)

mutual

/-- The code of an expression stands from an address on. -/
def Expr.Laid (a : Nat) : Expr → Prop
  | .int v _ => Stands code a [.push v]
  | .bool b _ => Stands code a [.push (if b then 1 else 0)]
  | .null _ => Stands code a [.push (-1)]
  | .binary .and x y _ =>
    x.Laid a ∧ Stands code (a + x.size) [.push 0, .jump .ifEqual (a + x.size + 2 + y.size + 4)] ∧
      y.Laid (a + x.size + 2) ∧ Stands code (a + x.size + 2 + y.size)
        [.push 0, .jump .ifEqual (a + x.size + 2 + y.size + 4), .push 1,
          .jump .always (a + x.size + 2 + y.size + 5), .push 0]
  | .binary .or x y _ =>
    x.Laid a ∧ Stands code (a + x.size) [.push 1, .jump .ifEqual (a + x.size + 2 + y.size + 4)] ∧
      y.Laid (a + x.size + 2) ∧ Stands code (a + x.size + 2 + y.size)
        [.push 1, .jump .ifEqual (a + x.size + 2 + y.size + 4), .push 0,
          .jump .always (a + x.size + 2 + y.size + 5), .push 1]
  | .binary op x y _ =>
    x.Laid a ∧ y.Laid (a + x.size) ∧
      Stands code (a + x.size + y.size) (op.tail (a + x.size + y.size))
  | .not e _ =>
    Stands code a [.push 1] ∧ e.Laid (a + 1) ∧
      Stands code (a + 1 + e.size) [.plain (.arith .sub)]
  | .cond c x y _ =>
    c.Laid a ∧ Stands code (a + c.size) [.push 1, .jump .ifEqual (a + c.size + 2 + y.size + 1)] ∧
      y.Laid (a + c.size + 2) ∧ Stands code (a + c.size + 2 + y.size)
        [.jump .always (a + c.size + 2 + y.size + 1 + x.size)] ∧
      x.Laid (a + c.size + 2 + y.size + 1)
  | .print e _ => e.Laid a ∧ Stands code (a + e.size) [.plain .print]
  | .id _ r _ => Stands code a (Code.ops (r.elim [] Code.slotOf))
  | .call _ args r _ =>
    Stands code a [.plain (.load .fp)] ∧ Expr.LaidReversed (a + 1) args ∧
      Stands code (a + 1 + Expr.sizeAll args) (Code.ops (r.elim [] Code.callOf))
  | .new _ args r _ =>
    Expr.LaidAll a args ∧ Stands code (a + Expr.sizeAll args)
      (Code.ops (r.elim [] fun r => Code.object args.length r.entry.offset))
  | .methodCall receiver _ args b _ =>
    Stands code a [.plain (.load .fp)] ∧ Expr.LaidReversed (a + 1) args ∧
      receiver.Laid (a + 1 + Expr.sizeAll args) ∧
      Stands code (a + 1 + Expr.sizeAll args + receiver.size)
        (Code.ops (b.elim [] fun b => Code.sendTo b.offset))

/-- The code of some expressions stands in their order. -/
def Expr.LaidAll (a : Nat) : List Expr → Prop
  | [] => True
  | e :: es => e.Laid a ∧ Expr.LaidAll (a + e.size) es

/-- The code of some expressions stands in the reverse order. -/
def Expr.LaidReversed (a : Nat) : List Expr → Prop
  | [] => True
  | e :: es => Expr.LaidReversed a es ∧ e.Laid (a + Expr.sizeAll es)

end

variable (placed : List (Nat × Routine))

/-- The code of some declarations stands from an address on: a function is the address of its routine. -/
def Decl.LaidAll (a : Nat) : List Decl → Prop
  | [] => True
  | .var _ _ value _ :: ds => value.Laid code a ∧ Decl.LaidAll (a + value.size) ds
  | .function header locals body :: ds =>
    (∃ t, (t, ⟨header.params, locals, body⟩) ∈ placed ∧ Stands code a [.push (.ofNat t)]) ∧
      Decl.LaidAll (a + 1) ds

/-- The code of a routine stands from an address on. -/
def Routine.Laid (a : Nat) (r : Routine) : Prop :=
  Stands code a [.plain .copyFp, .plain (.load .ra)] ∧ Decl.LaidAll code placed (a + 2) r.locals ∧
    r.body.Laid code (a + 2 + Decl.sizeAll r.locals) ∧
    Stands code (a + r.bodySize) (Code.ops (Code.epilogue r.params.length r.locals.length))

/-- Code that puts the addresses of the routines of methods on the heap stands from an address on. -/
def Method.LaidAll (a : Nat) : List Method → Prop
  | [] => True
  | m :: ms =>
    (∃ t, (t, m.routine) ∈ placed ∧ Stands code a (.push (.ofNat t) :: Code.ops Code.allocate)) ∧
      Method.LaidAll (a + 7) ms

/-- The code that builds the dispatch tables of some classes stands from an address on. -/
def ClassDecl.LaidAll (a : Nat) : List ClassDecl → Prop
  | [] => True
  | c :: cs =>
    Stands code a [.plain (.load .hp)] ∧ Method.LaidAll code placed (a + 1) c.methods ∧
      ClassDecl.LaidAll (a + c.size) cs

end

/-- The code of a program. -/
structure Program.Laid (code : Array Op) (p : Program) : Prop where
  tables : ∀ classes decls body, p = .letIn classes decls body →
    Stands code 0 [.push 0] ∧ ClassDecl.LaidAll code p.placed 1 classes
  decls : Decl.LaidAll code p.placed p.declsStart p.decls
  body : p.body.Laid code p.bodyStart
  halt : Stands code (p.bodyStart + p.body.size) [.plain .halt]
  routines : ∀ x ∈ p.placed, x.2.Laid code p.placed x.1 ∧ x.1 + x.2.size ≤ code.size

end FoolLang
