/-
Typing: the type of an expression in a decorated tree, and what is wrong with the types of a
program. An expression that holds an undecorated use has no type and no problem of its own, because
the use has been reported before. One problem at most is reported per declaration.
-/
import FoolLang.Diagnostic
import FoolLang.Tree

namespace FoolLang

/-- Why an expression has no type. -/
inductive Untyped where
  /-- A use in it is undecorated. -/
  | incomplete
  | problem (d : Diagnostic)
deriving DecidableEq

/-- A type, or why there is none. -/
abbrev Typed := Except Untyped

/-- Refuses to give a type. -/
def Typed.fail {α : Type} (cause : Cause) (line : Nat) : Typed α :=
  throw (.problem ⟨cause, line⟩)

/-- Goes on only where a condition holds. -/
def Typed.ensure (holds : Bool) (cause : Cause) (line : Nat) : Typed Unit :=
  if holds then return () else Typed.fail cause line

/-- The part of a decorated use, which has to be there. -/
def Typed.decoration {α : Type} : Option α → Typed α
  | some a => return a
  | none => throw .incomplete

/-- The type of the result of an operator on operands of two types. -/
def BinaryOp.resultType (op : BinaryOp) (a b : Ty) (line : Nat) : Typed Ty :=
  match op with
  | .plus | .minus | .times | .div => do
    Typed.ensure (a.subtype .int && b.subtype .int) (.nonIntegerOperands op.describe) line
    return .int
  | .equal | .lessEqual | .greaterEqual => do
    Typed.ensure (a.subtype b || b.subtype a) (.incompatibleComparison op.describe) line
    return .bool
  | .and | .or => do
    Typed.ensure (a.subtype .bool && b.subtype .bool) (.nonBooleanOperands op.describe) line
    return .bool

/-- The more general of the types of two branches. -/
def Ty.join (a b : Ty) (line : Nat) : Typed Ty :=
  if a.subtype b then return b
  else if b.subtype a then return a
  else Typed.fail (.incompatibleBranches a.text b.text) line

/-- The type of a name used as a value. -/
def Ty.asValue (name : String) (line : Nat) : Ty → Typed Ty
  | .arrow _ => Typed.fail (.functionAsValue name) line
  | .cls _ _ => Typed.fail (.classAsValue name) line
  | type => return type

/-- The signature of a name that is called. -/
def Ty.asFunction (name : String) (line : Nat) : Ty → Typed Signature
  | .arrow s => return s
  | _ => Typed.fail (.notAFunction name) line

/-- The types of the fields of a name that is instantiated. -/
def Ty.asClass (name : String) (line : Nat) : Ty → Typed (List Ty)
  | .cls fields _ => return fields
  | _ => Typed.fail (.notAClass name) line

/-- Refuses the receiver of a method call unless it is an object. -/
def Ty.ensureObject (method : String) (line : Nat) : Ty → Typed Unit
  | .ref _ => return ()
  | _ => Typed.fail (.notAnObject method) line

mutual

/-- The type of an expression. -/
def Expr.type : Expr → Typed Ty
  | .int _ _ => return .int
  | .bool _ _ => return .bool
  | .null _ => return .null
  | .binary op a b l => do
    let s ← a.type
    let t ← b.type
    op.resultType s t l
  | .not e l => do
    let t ← e.type
    Typed.ensure (t.subtype .bool) (.nonBooleanOperands "not") l
    return .bool
  | .cond c a b l => do
    let t ← c.type
    Typed.ensure (t.subtype .bool) .nonBooleanCondition l
    let s ← a.type
    let u ← b.type
    s.join u l
  | .print e _ => e.type
  | .id name r l => do
    let r ← Typed.decoration r
    r.entry.type.asValue name l
  | .call name args r l => do
    let r ← Typed.decoration r
    let s ← r.entry.type.asFunction name l
    Typed.ensure (s.params.length == args.length)
      (.wrongArgumentCount name s.params.length args.length) l
    Expr.checkArgs name l 1 s.params args
    return s.result
  | .new c args r l => do
    let r ← Typed.decoration r
    let fields ← r.entry.type.asClass c l
    Typed.ensure (fields.length == args.length)
      (.wrongArgumentCount c fields.length args.length) l
    Expr.checkArgs c l 1 fields args
    return .ref c
  | .methodCall receiver method args b l => do
    let t ← receiver.type
    t.ensureObject method l
    let b ← Typed.decoration b
    let s ← b.type.asFunction method l
    Typed.ensure (s.params.length == args.length)
      (.wrongArgumentCount method s.params.length args.length) l
    Expr.checkArgs method l 1 s.params args
    return s.result

/--
Checks arguments against the types of parameters one after the other; the first argument has the
position given.
-/
def Expr.checkArgs (callee : String) (line position : Nat) : List Ty → List Expr → Typed Unit
  | t :: ts, e :: es => do
    let s ← e.type
    Typed.ensure (s.subtype t) (.argumentTypeMatchError callee position t.text s.text) line
    Expr.checkArgs callee line (position + 1) ts es
  | _, _ => return ()

end

/-- The problem of an expression, if it is reported where the expression stands. -/
def Typed.problems {α : Type} : Typed α → List Diagnostic
  | .error (.problem d) => [d]
  | .error .incomplete => []
  | .ok _ => []

/-- Checks the body of a routine against the result that its header announces. -/
def Header.checkBody (h : Header) (kind : String) (body : Expr) : Typed Unit := do
  let t ← body.type
  Typed.ensure (t.subtype h.result) (.wrongReturnType kind h.name h.result.text t.text) h.line

mutual

/-- What is wrong with the types of a declaration: inside a function the local ones first. -/
def Decl.typeProblems : Decl → List Diagnostic
  | .var name type value line =>
    Typed.problems do
      let t ← value.type
      Typed.ensure (t.subtype type) (.incompatibleValue name type.text t.text) line
  | .function h locals body =>
    Decl.typeProblemsAll locals ++ Typed.problems (h.checkBody "function" body)

/-- What is wrong with the types of some declarations. -/
def Decl.typeProblemsAll : List Decl → List Diagnostic
  | [] => []
  | d :: ds => d.typeProblems ++ Decl.typeProblemsAll ds

end

/-- What is wrong with the types of a method. -/
def Method.typeProblems (m : Method) : List Diagnostic :=
  Decl.typeProblemsAll m.locals ++ Typed.problems (m.header.checkBody "method" m.body)

/-- What is wrong with the types of a class. -/
def ClassDecl.typeProblems (c : ClassDecl) : List Diagnostic := c.methods.flatMap (·.typeProblems)

/-- What is wrong with the types of a program. -/
def Program.typeProblems : Program → List Diagnostic
  | .letIn classes decls body =>
    classes.flatMap (·.typeProblems) ++ Decl.typeProblemsAll decls ++ Typed.problems body.type
  | .expr body => Typed.problems body.type

end FoolLang
