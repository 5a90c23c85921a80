/-
Types, declarations, classes and whole programs. Functions and methods share the shape of a
routine: a header, local declarations between `let` and `in`, and a body.
-/
import FoolLang.Grammar.Expression

namespace FoolLang

open Reading

namespace TypeForm

/-- `int` or `bool`. -/
def readPrimitive : Reading Ty := do
  let t ← advance
  match t.kind with
  | .kwInt => return .int
  | .kwBool => return .bool
  | _ => refuseToken t

/-- The name of a class. -/
def readClassName : Reading Ty := do
  let t ← expect .identifier
  return .ref t.value

/-- Reads a form of type. -/
def read : TypeForm → Reading Ty
  | primitive => readPrimitive
  | className => readClassName

end TypeForm

namespace Grammar

/-- Reads a type. -/
def typeName (g : Grammar) : Reading Ty := do
  match g.type (← kind) with
  | some form => form.read
  | none => refuse "expected a type"

/-- Reads a name with its type. -/
def formal (g : Grammar) : Reading Formal := do
  let t ← expect .identifier
  let _ ← expect .colon
  let type ← g.typeName
  return ⟨t.value, type, t.line⟩

/-- Reads parameters or fields. -/
def formals (g : Grammar) : Reading (List Formal) := commaList g.formal

/-- Reads `var x : T = e ;`. -/
def varDecl (g : Grammar) : Reading Decl := do
  let t ← advance
  let name ← expectAs .identifier "expected identifier during variable declaration"
  let _ ← expect .colon
  let type ← g.typeName
  let _ ← expect .assignment
  let value ← g.expr .default
  let _ ← expect .semicolon
  return .var name.value type value t.line

/-- Reads `fun f : T ( params )`. -/
def header (g : Grammar) : Reading Header := do
  let t ← expect .kwFun
  let name ← expectAs .identifier "expected identifier during function declaration"
  let _ ← expect .colon
  let result ← g.typeName
  let params ← g.formals
  return ⟨name.value, result, params, t.line⟩

/-- Reads the declarations between `let` and `in`, if there are any; then at least one. -/
def localDecls (decl : Reading Decl) : Reading (List Decl) := do
  if (← kind) = .kwLet then
    let _ ← advance
    let first ← decl
    let more ← many (· != .kwIn) decl
    let _ ← expect .kwIn
    return first :: more
  else return []

/-- Reads a routine whose local declarations have a reader of their own. -/
def routine (g : Grammar) (decl : Reading Decl) : Reading (Header × List Decl × Expr) := do
  let header ← g.header
  let locals ← localDecls decl
  let body ← g.expr .default
  let _ ← expect .semicolon
  return (header, locals, body)

/-- Reads the declaration of a function. -/
def functionDecl (g : Grammar) (decl : Reading Decl) : Reading Decl := do
  let (header, locals, body) ← g.routine decl
  return .function header locals body

/-- Reads a declaration that nests at most a number of levels deep. -/
def declWithin (g : Grammar) : Nat → Reading Decl
  | 0 => do refuseToken (← get).current
  | depth + 1 => do
    match g.decl (← kind) with
    | some .var => g.varDecl
    | some .function => g.functionDecl (declWithin g depth)
    | none => refuse "expected a var or fun declaration"

/-- Reads a declaration. -/
def declaration (g : Grammar) : Reading Decl := do declWithin g ((← remaining) + 1)

/-- Reads a method, which has no slot yet. -/
def method (g : Grammar) : Reading Method := do
  let (header, locals, body) ← g.routine g.declaration
  return ⟨header, locals, body, none⟩

/-- Reads `class C ( fields ) { methods }`. -/
def classDecl (g : Grammar) : Reading ClassDecl := do
  let t ← expect .kwClass
  let name ← expectAs .identifier "expected class name"
  let fields ← g.formals
  let _ ← expect .openCurly
  let methods ← many (· == .kwFun) g.method
  let _ ← expectAs .closeCurly "expected a method declaration or `\x7d`"
  return ⟨name.value, fields, methods, t.line⟩

/-- Reads an expression and the semicolon that ends a program. -/
def programBody (g : Grammar) : Reading Expr := do
  let body ← g.expr .default
  let _ ← expect .semicolon
  return body

/-- Reads a program up to its semicolon. -/
def programText (g : Grammar) : Reading Program := do
  if (← kind) = .kwLet then
    let _ ← advance
    let classes ← many (· == .kwClass) g.classDecl
    let decls ← many (fun k => k != .kwIn && k != .eof) g.declaration
    if classes.isEmpty && decls.isEmpty then
      refuse "expected at least one declaration after let"
    else
      let _ ← expect .kwIn
      return .letIn classes decls (← g.programBody)
  else return .expr (← g.programBody)

/-- Reads a program, after which nothing may follow. -/
def program (g : Grammar) : Reading Program := do
  let p ← g.programText
  if (← get).hasTokens then refuse "expected end of program" else return p

end Grammar

/-- The program that some tokens are; the cursor of the result is where the reading stopped. -/
def Program.ofTokens (tokens : List Token) : EStateM.Result Diagnostic Cursor Program :=
  Grammar.standard.program.run (.ofTokens tokens)

end FoolLang
