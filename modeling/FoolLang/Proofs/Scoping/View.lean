/-
Lexical scoping, told from the text of a program alone: which uses of names stand in it, in their
order, and what is visible at each of them. A scope is the list of what its declarations bind, the
latest first, and a place sees its own scope and those around it, from the innermost out.
-/
import FoolLang.Scope.Resolve
import Mathlib.Data.List.Basic

namespace FoolLang

/-! ## Uses -/

/-- How a name is used: as a value or as a function that is called. -/
inductive Use.Manner where
  | value | callee
deriving DecidableEq

/-- How a name that is used in a manner is called in diagnostics. -/
def Use.Manner.describe : Use.Manner → String
  | .value => "Var or Par"
  | .callee => "Fun"

/-- A use of a name, with its decoration. -/
structure Use where
  manner : Use.Manner
  name : String
  line : Nat
  resolution : Option Resolution

mutual

/-- The uses in an expression, in their order. -/
def Expr.uses : Expr → List Use
  | .int _ _ | .bool _ _ | .null _ => []
  | .binary _ a b _ => a.uses ++ b.uses
  | .not e _ | .print e _ => e.uses
  | .cond c a b _ => c.uses ++ a.uses ++ b.uses
  | .id name r l => [⟨.value, name, l, r⟩]
  | .call name args r l => ⟨.callee, name, l, r⟩ :: Expr.usesAll args
  | .new _ args _ _ => Expr.usesAll args
  | .methodCall receiver _ args _ _ => receiver.uses ++ Expr.usesAll args

/-- The uses in some expressions. -/
def Expr.usesAll : List Expr → List Use
  | [] => []
  | e :: es => e.uses ++ Expr.usesAll es

end

mutual

/-- The uses in a declaration. -/
def Decl.uses : Decl → List Use
  | .var _ _ value _ => value.uses
  | .function _ locals body => Decl.usesAll locals ++ body.uses

/-- The uses in some declarations. -/
def Decl.usesAll : List Decl → List Use
  | [] => []
  | d :: ds => d.uses ++ Decl.usesAll ds

end

/-- The uses in a method. -/
def Method.uses (m : Method) : List Use := Decl.usesAll m.locals ++ m.body.uses

/-! ## Members of a class -/

/-- The items that no item before them is the same as. -/
def firsts {α : Type} (same : α → α → Bool) (earlier : List α) : List α → List α
  | [] => []
  | a :: as =>
    if earlier.any (same a) then firsts same (a :: earlier) as
    else a :: firsts same (a :: earlier) as

/-- The items that some item before them is the same as. -/
def repeats {α : Type} (same : α → α → Bool) (earlier : List α) : List α → List α
  | [] => []
  | a :: as =>
    if earlier.any (same a) then a :: repeats same (a :: earlier) as
    else repeats same (a :: earlier) as

/-- Whether a field has the name and the type of another one. -/
def Formal.sameAs (f g : Formal) : Bool := g.name == f.name && g.type == f.type

namespace ClassDecl

/-- The fields of a class without exact repetitions. -/
def ownFields (c : ClassDecl) : List Formal := firsts Formal.sameAs [] c.fields

/-- The methods of a class without exact repetitions. -/
def ownMethods (c : ClassDecl) : List Method := firsts Method.sameAs [] c.methods

/-- The uses in the methods of a class that are not exact repetitions. -/
def uses (c : ClassDecl) : List Use := c.ownMethods.flatMap (·.uses)

end ClassDecl

/-- The uses in a program, those in repeated methods left out. -/
def Program.uses : Program → List Use
  | .letIn classes decls body => classes.flatMap (·.uses) ++ Decl.usesAll decls ++ body.uses
  | .expr body => body.uses

/-- The methods of a class that are exact repetitions. -/
def ClassDecl.repeatedMethods (c : ClassDecl) : List Method := repeats Method.sameAs [] c.methods

/-- A program as it has been read: no use is decorated and no method has a slot. -/
def Program.Undecorated : Program → Prop
  | .letIn classes decls body =>
    (∀ u ∈ (Program.letIn classes decls body).uses, u.resolution = none) ∧
      ∀ c ∈ classes, ∀ m ∈ c.methods, m.slot = none
  | .expr body => ∀ u ∈ body.uses, u.resolution = none

/-- Whether a problem is that nothing of a name is visible. -/
def Cause.isNotDeclared : Cause → Bool
  | .notDeclared .. => true
  | _ => false

/-- Whether a problem is that a method is an exact repetition. -/
def Cause.isDuplicateMethod : Cause → Bool
  | .duplicateMethod .. => true
  | _ => false

/-- How a repeated method of a class is reported. -/
def Method.repetition (c : String) (m : Method) : Diagnostic :=
  ⟨.duplicateMethod c m.header.name, m.header.line⟩

/-- The reports of the methods of a program that are exact repetitions. -/
def Program.repetitions : Program → List Diagnostic
  | .letIn classes _ _ => classes.flatMap fun c => c.repeatedMethods.map (Method.repetition c.name)
  | .expr _ => []

/-! ## What is visible -/

/-- What the declarations of one scope bind, the latest first. -/
abbrev Names := List (String × Binding)

/--
What is visible at a place: the names of the innermost scope, those of the scopes around it from
the innermost out, and how many offsets the declarations of the innermost scope have taken.
-/
structure View where
  own : Names
  around : List Names
  taken : Nat

namespace View

/-- The open scopes, from the innermost out. -/
def scopes (v : View) : List Names := v.own :: v.around

/-- How many scopes are open inside the outermost one. -/
def depth (v : View) : Nat := v.around.length

/-- The binding of the innermost declaration of a name, and of the latest one in its scope. -/
def find? (v : View) (name : String) : Option Binding := v.scopes.findSome? (·.lookup name)

/-- What a use of a name means. -/
def resolution? (v : View) (name : String) : Option Resolution :=
  (v.find? name).map fun b => ⟨b, v.depth⟩

/-- The offset of the declaration before which a scope has taken some. -/
def offset (taken : Nat) : Int32 := .ofInt (-2 - taken)

/-- What is visible behind one more declaration in the innermost scope. -/
def declare (v : View) (name : String) (type : Ty) : View :=
  { v with own := (name, ⟨v.depth, type, offset v.taken, false⟩) :: v.own, taken := v.taken + 1 }

/-- What is visible behind a declaration. -/
def behind (v : View) : Decl → View
  | .var name type _ _ => v.declare name type
  | .function header _ _ => v.declare header.name (.arrow header.signature)

/-- What is visible behind some declarations. -/
def behindAll (v : View) (ds : List Decl) : View := ds.foldl behind v

/-- What the parameters of a routine bind, at offsets from 1 upward. -/
def parameters (depth : Nat) (params : List Formal) : Names :=
  (params.mapIdx fun i p => (p.name, ⟨depth, p.type, .ofNat (i + 1), false⟩)).reverse

/-- What is visible inside a routine before its local declarations. -/
def inside (v : View) (params : List Formal) : View :=
  ⟨parameters (v.depth + 1) params, v.scopes, 0⟩

end View

namespace ClassDecl

/-- What the fields of a class bind, in their order, at offsets from -1 downward. -/
def fieldNames (c : ClassDecl) : Names :=
  c.ownFields.mapIdx fun i f => (f.name, ⟨1, f.type, .ofInt (-1 - i), false⟩)

/-- What the methods of a class bind, in their order, at their slots. -/
def methodNames (c : ClassDecl) : Names :=
  c.ownMethods.mapIdx fun i m => (m.header.name, ⟨1, .arrow m.header.signature, .ofNat i, true⟩)

theorem fieldNames_map (c : ClassDecl) : c.fieldNames.map (·.1) = c.ownFields.map (·.name) :=
  List.ext_getElem (by simp [fieldNames]) (by simp [fieldNames])

theorem methodNames_map (c : ClassDecl) : c.methodNames.map (·.1) = c.ownMethods.map (·.header.name) :=
  List.ext_getElem (by simp [methodNames]) (by simp [methodNames])

/-- What the members of a class bind: the methods count as declared after the fields. -/
def memberNames (c : ClassDecl) : Names := (c.fieldNames ++ c.methodNames).reverse

/-- The type of a class: the types of its fields and the signatures of its methods. -/
def type (c : ClassDecl) : Ty :=
  .cls (c.ownFields.map (·.type)) (c.ownMethods.map (·.header.signature))

/-- What some classes bind in the outermost scope. -/
def names (cs : List ClassDecl) : Names :=
  (cs.mapIdx fun i c => (c.name, ⟨0, c.type, View.offset i, false⟩)).reverse

/-- What is visible in a class behind some classes: its members, itself and those classes. -/
def view (earlier : List ClassDecl) (c : ClassDecl) : View :=
  ⟨c.memberNames, [names (earlier ++ [c])], 0⟩

end ClassDecl

/-- What is visible behind the classes of a program. -/
def View.behindClasses (cs : List ClassDecl) : View := ⟨ClassDecl.names cs, [], cs.length⟩

/-! ## Places -/

/-- A use where it stands. -/
structure Occurrence where
  view : View
  use : Use

/-- The uses in an expression with what is visible there. -/
def Expr.occurrences (v : View) (e : Expr) : List Occurrence := e.uses.map (⟨v, ·⟩)

mutual

/--
The uses in a declaration with what is visible there. The value of a variable does not see the
variable; the inside of a function sees the function.
-/
def Decl.occurrences (v : View) : Decl → List Occurrence
  | .var _ _ value _ => value.occurrences v
  | .function header locals body =>
    let w := (v.declare header.name (.arrow header.signature)).inside header.params
    Decl.occurrencesAll w locals ++ body.occurrences (w.behindAll locals)

/-- The uses in the declarations of a scope: each declaration sees those before it. -/
def Decl.occurrencesAll (v : View) : List Decl → List Occurrence
  | [] => []
  | d :: ds => d.occurrences v ++ Decl.occurrencesAll (v.behind d) ds

end

/-- The uses in a method that stands in a class. -/
def Method.occurrences (v : View) (m : Method) : List Occurrence :=
  let w := v.inside m.header.params
  Decl.occurrencesAll w m.locals ++ m.body.occurrences (w.behindAll m.locals)

/-- The uses in the methods of the classes behind some classes. -/
def ClassDecl.occurrencesAll (earlier : List ClassDecl) : List ClassDecl → List Occurrence
  | [] => []
  | c :: cs =>
    c.ownMethods.flatMap (Method.occurrences (c.view earlier)) ++ ClassDecl.occurrencesAll (earlier ++ [c]) cs

/-- The uses in a program with what is visible there. -/
def Program.occurrences : Program → List Occurrence
  | .letIn classes decls body =>
    let v := View.behindClasses classes
    ClassDecl.occurrencesAll [] classes ++ Decl.occurrencesAll v decls ++ body.occurrences (v.behindAll decls)
  | .expr body => body.occurrences (View.behindClasses [])

namespace Occurrence

/-- The use with the meaning that it has where it stands, if it has any. -/
def decorated (p : Occurrence) : Use := { p.use with resolution := p.view.resolution? p.use.name }

/-- What is wrong with a use where nothing of its name is visible. -/
def problem? (p : Occurrence) : Option Diagnostic :=
  if (p.view.find? p.use.name).isSome then none
  else some ⟨.notDeclared p.use.manner.describe p.use.name, p.use.line⟩

/--
A resolution is of the innermost declaration of the name: no scope inside that of the declaration
binds it. The level of the entry counts the scopes around that of the declaration, the level of the
use those around its own, and the hops are the scopes in between.
-/
def Means (p : Occurrence) (r : Resolution) : Prop :=
  ∃ inner own outer, p.view.scopes = inner ++ own :: outer ∧
    (∀ names ∈ inner, names.lookup p.use.name = none) ∧ own.lookup p.use.name = some r.entry ∧
    r.entry.level = outer.length ∧ r.level = p.view.depth ∧ r.hops = inner.length

end Occurrence

end FoolLang
