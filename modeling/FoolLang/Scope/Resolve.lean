/-
Resolution: every use of a name gets the binding of the declaration it means. An expression changes
no scope, so what its uses mean and what is wrong with them are functions of the scope it stands
in. A use that means nothing keeps the decoration it had, and is reported.
-/
import FoolLang.Scope
import FoolLang.Text.Numeral

namespace FoolLang

/-- The class of the object that a function or method gives back. -/
def Ty.returnedClass? : Ty → Option String
  | .arrow ⟨_, .ref c⟩ => some c
  | _ => none

namespace Expr

/-- How the receiver of a method call is named in diagnostics. -/
def describe : Expr → String
  | id name _ _ => name
  | call name _ _ _ => s!"{name}(...)"
  | methodCall _ method _ _ _ => s!"{method}(...)"
  | int value _ => Text.ofInt32 value
  | bool value _ => if value then "true" else "false"
  | null _ => "null"
  | _ => "expression"

/--
The class of a decorated receiver, or why it has none. There is no answer where the receiver is
undecorated: that has been reported already.
-/
def receiverClass? (s : Scope) : Expr → Except Cause (Option String)
  | id name (some r) _ =>
    match r.entry.type with
    | .ref c => .ok (some c)
    | _ => .error (.notAClassVariable name)
  | id _ none _ => .ok none
  | new c _ _ _ => .ok (if s.classes.contains c then some c else none)
  | e@(call _ _ (some r) _) =>
    match r.entry.type.returnedClass? with
    | some c => .ok (some c)
    | none => .error (.notAClassVariable e.describe)
  | call _ _ none _ => .ok none
  | e@(methodCall _ _ _ (some b) _) =>
    match b.type.returnedClass? with
    | some c => .ok (some c)
    | none => .error (.notAClassVariable e.describe)
  | methodCall _ _ _ none _ => .ok none
  | e => .error (.notAClassVariable e.describe)

end Expr

namespace Scope

/-- What a use of a visible name means. -/
def resolution? (s : Scope) (name : String) : Option Resolution :=
  (s.lookup name).map fun b => ⟨b, s.level⟩

/-- The entry of a method in the table of a class. -/
def methodEntry? (s : Scope) (c method : String) : Option Binding := do
  let table ← s.classes.get? c
  let b ← table.get? method
  if b.isMethod then some b else none

/-- The entry that a method call on a decorated receiver means. -/
def callEntry? (s : Scope) (receiver : Expr) (method : String) : Option Binding :=
  match receiver.receiverClass? s with
  | .ok (some c) => s.methodEntry? c method
  | _ => none

/-- What is wrong with a method call on a decorated receiver. -/
def callProblem? (s : Scope) (receiver : Expr) (method : String) : Option Cause :=
  match receiver.receiverClass? s with
  | .error cause => some cause
  | .ok none => none
  | .ok (some c) =>
    if s.classes.contains c then
      match s.methodEntry? c method with
      | some _ => none
      | none => some (.methodNotDeclared c method)
    else some (.classNotDeclared c)

end Scope

mutual

/-- An expression with the uses in it decorated as they stand in a scope. -/
def Expr.decorate (s : Scope) : Expr → Expr
  | .int v l => .int v l
  | .bool v l => .bool v l
  | .null l => .null l
  | .binary op a b l => .binary op (a.decorate s) (b.decorate s) l
  | .not e l => .not (e.decorate s) l
  | .cond c a b l => .cond (c.decorate s) (a.decorate s) (b.decorate s) l
  | .print e l => .print (e.decorate s) l
  | .id name r l => .id name (s.resolution? name <|> r) l
  | .call name args r l => .call name (Expr.decorateAll s args) (s.resolution? name <|> r) l
  | .new c args r l =>
    let r' :=
      if s.classes.contains c then (s.lookupOutermost c).map fun b => ⟨b, s.level⟩ else r
    .new c (Expr.decorateAll s args) r' l
  | .methodCall receiver method args b l =>
    let receiver' := receiver.decorate s
    .methodCall receiver' method (Expr.decorateAll s args) (s.callEntry? receiver' method <|> b) l

/-- Some expressions with the uses in them decorated. -/
def Expr.decorateAll (s : Scope) : List Expr → List Expr
  | [] => []
  | e :: es => e.decorate s :: Expr.decorateAll s es

end

mutual

/-- What is wrong with the uses in an expression that stands in a scope, in their order. -/
def Expr.problems (s : Scope) : Expr → List Diagnostic
  | .int _ _ | .bool _ _ | .null _ => []
  | .binary _ a b _ => a.problems s ++ b.problems s
  | .not e _ | .print e _ => e.problems s
  | .cond c a b _ => c.problems s ++ a.problems s ++ b.problems s
  | .id name _ l =>
    match s.lookup name with
    | some _ => []
    | none => [⟨.notDeclared "Var or Par" name, l⟩]
  | .call name args _ l =>
    (match s.lookup name with
      | some _ => []
      | none => [⟨.notDeclared "Fun" name, l⟩]) ++ Expr.problemsAll s args
  | .new c args _ l =>
    (if s.classes.contains c then [] else [⟨.classNotDeclared c, l⟩]) ++ Expr.problemsAll s args
  | .methodCall receiver method args _ l =>
    receiver.problems s ++
      (match s.callProblem? (receiver.decorate s) method with
        | some cause => [⟨cause, l⟩]
        | none => []) ++ Expr.problemsAll s args

/-- What is wrong with the uses in some expressions. -/
def Expr.problemsAll (s : Scope) : List Expr → List Diagnostic
  | [] => []
  | e :: es => e.problems s ++ Expr.problemsAll s es

end

/-- A step of resolution: it goes on from a scope to the next. -/
abbrev Resolving := StateM Scope

/-- Resolves an expression: decorates it and reports what is wrong with it. -/
def Expr.resolve (e : Expr) : Resolving Expr :=
  modifyGet fun s => (e.decorate s, { s with problems := s.problems ++ e.problems s })

mutual

/--
Resolves a declaration and binds its name. The value of a variable is resolved before the variable
is bound; a function is bound before its inside is resolved.
-/
def Decl.resolve : Decl → Resolving Decl
  | .var name type value line => do
    let value ← value.resolve
    modify (·.declareNext "Var" name type line)
    return .var name type value line
  | .function header locals body => do
    modify (·.declareNext "Fun" header.name (.arrow header.signature) header.line)
    let offset := (← get).nextOffset
    modify fun s => s.enter.declareParams header.params 1
    let locals ← Decl.resolveAll locals
    let body ← body.resolve
    modify (·.leave offset)
    return .function header locals body

/-- Resolves declarations one after the other. -/
def Decl.resolveAll : List Decl → Resolving (List Decl)
  | [] => return []
  | d :: ds => do
    let d ← d.resolve
    return d :: (← Decl.resolveAll ds)

end

namespace Method

/-- Whether a method has the name and the signature of another one. -/
def sameAs (m n : Method) : Bool :=
  m.header.name == n.header.name && m.header.signature == n.header.signature

/-- Resolves the inside of a method. -/
def resolve (m : Method) : Resolving Method := do
  let offset := (← get).nextOffset
  modify fun s => s.enter.declareParams m.header.params 1
  let locals ← Decl.resolveAll m.locals
  let body ← m.body.resolve
  modify (·.leave offset)
  return { m with locals, body }

/-- Resolves the methods that have a slot. -/
def resolveAll : List Method → Resolving (List Method)
  | [] => return []
  | m :: ms => do
    let m ← if m.slot.isSome then m.resolve else pure m
    return m :: (← resolveAll ms)

end Method

namespace ClassDecl

/--
Binds the fields of a class at the offsets from one downward and gives their types. A field with
the name and type of an earlier one is reported and left out.
-/
def declareFields (c : String) : List Formal → List Formal → Int32 → Resolving (List Ty)
  | _, [], _ => return []
  | earlier, f :: fs, offset => do
    if earlier.any fun g => g.name == f.name && g.type == f.type then
      modify (·.report (.duplicateField c f.name) f.line)
      declareFields c (f :: earlier) fs offset
    else
      modify fun s => s.declare "Field" f.name { level := s.level, type := f.type, offset } f.line
      return f.type :: (← declareFields c (f :: earlier) fs (offset - 1))

/--
Binds the methods of a class at the slots from one upward; gives the methods with their slots, and
the signatures in the order of the slots. A method with the name and signature of an earlier one
is reported and left out.
-/
def declareMethods (c : String) :
    List Method → List Method → Int32 → Resolving (List Method × List Signature)
  | _, [], _ => return ([], [])
  | earlier, m :: ms, slot => do
    if earlier.any m.sameAs then
      modify (·.report (.duplicateMethod c m.header.name) m.header.line)
      let (ms', signatures) ← declareMethods c (m :: earlier) ms slot
      return (m :: ms', signatures)
    else
      let signature := m.header.signature
      modify fun s => s.declare "Method" m.header.name
        { level := s.level, type := .arrow signature, offset := slot, isMethod := true }
        m.header.line
      let (ms', signatures) ← declareMethods c (m :: earlier) ms (slot + 1)
      return ({ m with slot := some slot } :: ms', signature :: signatures)

/--
Resolves a class. Its table is complete, and the class itself bound, before the inside of any
method is resolved, so methods see each other in any order.
-/
def resolve (c : ClassDecl) : Resolving ClassDecl := do
  let offset := (← get).nextOffset
  modify (·.enter)
  let fields ← declareFields c.name [] c.fields (-1)
  let (methods, signatures) ← declareMethods c.name [] c.methods 0
  modify fun s => { s with classes := s.classes.put c.name (s.frames.headD .empty) }
  modify (·.declareClass c.name { level := 0, type := .cls fields signatures, offset } c.line)
  let methods ← Method.resolveAll methods
  modify (·.leave (offset - 1))
  return { c with methods }

/-- Resolves classes one after the other. -/
def resolveAll : List ClassDecl → Resolving (List ClassDecl)
  | [] => return []
  | c :: cs => do
    let c ← c.resolve
    return c :: (← resolveAll cs)

end ClassDecl

namespace Program

/-- Resolves the parts of a program: the classes, the declarations, the body. -/
def resolveParts : Program → Resolving Program
  | letIn classes decls body => do
    let classes ← ClassDecl.resolveAll classes
    let decls ← Decl.resolveAll decls
    return letIn classes decls (← body.resolve)
  | expr body => return expr (← body.resolve)

/-- The decorated form of a program, and the scope that its resolution ends in. -/
def resolve (p : Program) : Program × Scope := p.resolveParts.run .outermost

end Program

end FoolLang
