/-
The meaning of resolved programs, apart from any machine. Values are words: a truth value is 0 or 1,
the null reference is -1, and an object is its address. Names mean what the innermost scope says
that declares them, and the inside of a routine is evaluated in the scopes around its declaration.
A number bounds how deeply calls are nested.
-/
import FoolLang.Tree
import Mathlib.Algebra.Ring.Nat

namespace FoolLang

/-- Why an evaluation ends without a value. -/
inductive Stop where
  | divisionByZero
  /-- A method of the null reference was called. -/
  | nullReceiver
  /-- The program is not one that resolution and typing accept. -/
  | stuck
  /-- The depth of calls allowed was used up. -/
  | exhausted
deriving DecidableEq

/-- An object: its class and the values of its fields. Fields never change. -/
structure Object where
  cls : ClassDecl
  fields : List Int32

/-- The objects made so far by address, the first free address, and what has been printed. -/
structure Store where
  free : Nat
  objects : List (Int32 × Object)
  output : List Int32

/-- The object at an address. -/
def Store.object? (σ : Store) (a : Int32) : Option Object := σ.objects.lookup a

/-- An evaluation: it may make objects, print and stop. -/
abbrev Evaluating := StateT Store (Except Stop)

/-! ## Environments -/

/-- What a name means. -/
inductive Meaning where
  | value (w : Int32)
  | function (header : Header) (locals : List Decl) (body : Expr)
  /-- A method of the object at an address. -/
  | method (this : Int32)

/-- The names of the open scopes with their meanings, the innermost scope and the latest name first. -/
abbrev Env := List (List (String × Meaning))

namespace Env

/-- The meaning of a name in a scope, and the part of the scope from its declaration on. -/
def findIn? (name : String) : List (String × Meaning) → Option (Meaning × List (String × Meaning))
  | [] => none
  | (x, m) :: scope => if name == x then some (m, (x, m) :: scope) else findIn? name scope

/-- The meaning of a name, and the scopes that its declaration stands in, itself included. -/
def find? (name : String) : Env → Option (Meaning × Env)
  | [] => none
  | scope :: ρ =>
    match findIn? name scope with
    | some (m, scope) => some (m, scope :: ρ)
    | none => find? name ρ

/-- Declares a name in the innermost scope. -/
def declare (name : String) (m : Meaning) : Env → Env
  | [] => [[(name, m)]]
  | scope :: ρ => ((name, m) :: scope) :: ρ

end Env

/-- What a call runs. -/
structure Routine where
  params : List Formal
  locals : List Decl
  body : Expr

namespace Routine

/-- The scope of the parameters of a routine. -/
def arguments (r : Routine) (vs : List Int32) : List (String × Meaning) :=
  ((r.params.zip vs).map fun x => (x.1.name, Meaning.value x.2)).reverse

end Routine

/-- The routine of a method. -/
def Method.routine (m : Method) : Routine := ⟨m.header.params, m.locals, m.body⟩

/-- The method of a name in a class. -/
def ClassDecl.method? (c : ClassDecl) (name : String) : Option Method :=
  c.methods.find? (·.header.name == name)

namespace Object

/-- The scope of the members of an object: its fields, then the methods of its class. -/
def members (o : Object) (this : Int32) : List (String × Meaning) :=
  let fields := (o.cls.fields.zip o.fields).map fun x => (x.1.name, Meaning.value x.2)
  let methods := o.cls.methods.map fun m => (m.header.name, Meaning.method this)
  (fields ++ methods).reverse

/-- The scopes that the methods of an object stand in. Classes are not values and need no meaning. -/
def env (o : Object) (this : Int32) : Env := [o.members this, []]

end Object

/-! ## Expressions -/

namespace Evaluating

/-- How routines are run: with scopes and arguments. -/
abbrev Calling := Routine → Env → List Int32 → Evaluating Int32

/-- Prints a value. -/
def print (w : Int32) : Evaluating Unit := modify fun σ => { σ with output := σ.output ++ [w] }

/--
Makes an object at the first free addresses: its fields, the last one first, and at its own address
the mark of its class.
-/
def allocate (c : ClassDecl) (vs : List Int32) : Evaluating Int32 := do
  let σ ← get
  let a := Int32.ofNat (σ.free + vs.length)
  set { σ with free := σ.free + vs.length + 1, objects := (a, ⟨c, vs⟩) :: σ.objects }
  return a

/-- Calls a method of the object at an address, as the class of the object has it. -/
def send (call : Calling) (this : Int32) (method : String) (vs : List Int32) : Evaluating Int32 := do
  match (← get).object? this with
  | none => throw .stuck
  | some o =>
    match o.cls.method? method with
    | none => throw .stuck
    | some m => call m.routine (o.env this) vs

end Evaluating

/-- The word of a truth value. -/
def wordOf (b : Bool) : Int32 := if b then 1 else 0

/-- The value of an operator on the values of both operands. -/
def BinaryOp.apply : BinaryOp → Int32 → Int32 → Evaluating Int32
  | .plus, x, y => return x + y
  | .minus, x, y => return x - y
  | .times, x, y => return x * y
  | .div, x, y => if y = 0 then throw .divisionByZero else return x / y
  | .equal, x, y => return wordOf (x = y)
  | .lessEqual, x, y => return wordOf (x ≤ y)
  | .greaterEqual, x, y => return wordOf (y ≤ x)
  | .and, x, y => return wordOf (x = 1 ∧ y = 1)
  | .or, x, y => return wordOf (x = 1 ∨ y = 1)

section

variable (classes : List ClassDecl) (call : Evaluating.Calling)

mutual

/-- Evaluates an expression, given the classes of the program and how routines are run. -/
def Expr.evaluate (ρ : Env) : Expr → Evaluating Int32
  | .int v _ => return v
  | .bool b _ => return wordOf b
  | .null _ => return -1
  | .binary .and a b _ => do if (← a.evaluate ρ) = 0 then return 0 else b.evaluate ρ
  | .binary .or a b _ => do if (← a.evaluate ρ) = 1 then return 1 else b.evaluate ρ
  | .binary op a b _ => do
    let x ← a.evaluate ρ
    let y ← b.evaluate ρ
    op.apply x y
  | .not e _ => do return wordOf ((← e.evaluate ρ) = 0)
  | .cond c a b _ => do if (← c.evaluate ρ) = 1 then a.evaluate ρ else b.evaluate ρ
  | .print e _ => do
    let w ← e.evaluate ρ
    Evaluating.print w
    return w
  | .id name _ _ =>
    match ρ.find? name with
    | some (.value w, _) => return w
    | _ => throw .stuck
  | .call name args _ _ => do
    let vs ← Expr.evaluateReversed ρ args
    match ρ.find? name with
    | some (.function header locals body, ρ') => call ⟨header.params, locals, body⟩ ρ' vs
    | some (.method this, _) => Evaluating.send call this name vs
    | _ => throw .stuck
  | .new c args _ _ => do
    let vs ← Expr.evaluateAll ρ args
    match classes.find? (·.name == c) with
    | some cls => Evaluating.allocate cls vs
    | none => throw .stuck
  | .methodCall receiver method args _ _ => do
    let vs ← Expr.evaluateReversed ρ args
    let this ← receiver.evaluate ρ
    if this = -1 then throw .nullReceiver else Evaluating.send call this method vs

/-- Evaluates expressions from left to right. -/
def Expr.evaluateAll (ρ : Env) : List Expr → Evaluating (List Int32)
  | [] => return []
  | e :: es => do
    let w ← e.evaluate ρ
    return w :: (← Expr.evaluateAll ρ es)

/-- Evaluates expressions from right to left; the values are in the order of the expressions. -/
def Expr.evaluateReversed (ρ : Env) : List Expr → Evaluating (List Int32)
  | [] => return []
  | e :: es => do
    let ws ← Expr.evaluateReversed ρ es
    return (← e.evaluate ρ) :: ws

end

/-! ## Routines and programs -/

/-- Evaluates declarations; gives the environment behind them. -/
def Decl.evaluateAll (ρ : Env) : List Decl → Evaluating Env
  | [] => return ρ
  | .var name _ value _ :: ds => do
    let w ← value.evaluate classes call ρ
    Decl.evaluateAll (ρ.declare name (.value w)) ds
  | .function header locals body :: ds =>
    Decl.evaluateAll (ρ.declare header.name (.function header locals body)) ds

/-- Runs a routine in a scope of its own. -/
def Routine.evaluate (r : Routine) (ρ : Env) (vs : List Int32) : Evaluating Int32 := do
  let ρ' ← Decl.evaluateAll classes call (r.arguments vs :: ρ) r.locals
  r.body.evaluate classes call ρ'

end

/-- Runs a routine in which calls are nested to a limited depth. -/
def Routine.run (classes : List ClassDecl) : Nat → Evaluating.Calling
  | 0, _, _, _ => throw .exhausted
  | n + 1, r, ρ, vs => r.evaluate classes (Routine.run classes n) ρ vs

namespace Program

/-- The classes of a program. -/
def classes : Program → List ClassDecl
  | letIn classes _ _ => classes
  | expr _ => []

/-- The declarations of a program. -/
def decls : Program → List Decl
  | letIn _ decls _ => decls
  | expr _ => []

/-- How many methods the classes of a program have; a word for each stands in front of all objects. -/
def methodCount (p : Program) : Nat := (p.classes.map (·.methods.length)).sum

/-- The value of a program and what it prints, with calls nested to a limited depth. -/
def evaluate (p : Program) (n : Nat) : Except Stop (Int32 × List Int32) := do
  let call := Routine.run p.classes n
  let evaluation : Evaluating Int32 := do
    let ρ ← Decl.evaluateAll p.classes call [[]] p.decls
    p.body.evaluate p.classes call ρ
  let (w, σ) ← evaluation.run ⟨p.methodCount, [], []⟩
  return (w, σ.output)

end Program

end FoolLang
