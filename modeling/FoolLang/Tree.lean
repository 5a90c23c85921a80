/-
Program trees. Every node carries the line of its defining token. A use of a name has room for the
declaration it means, which is empty in a tree that has just been read.
-/
import FoolLang.Ty

namespace FoolLang

/--
What is known of a declared name: the nesting level of its frame, its type, and its offset in the
frame. A method is not reached through a frame but through the dispatch table of its class, in
which the offset is its slot.
-/
structure Binding where
  level : Nat
  type : Ty
  offset : Int32
  isMethod : Bool := false
deriving DecidableEq

/-- The declaration that a use means, and the nesting level of the use. -/
structure Resolution where
  entry : Binding
  level : Nat
deriving DecidableEq

/-- How many static links lead from the frame of a use to the frame of its declaration. -/
def Resolution.hops (r : Resolution) : Nat := r.level - r.entry.level

/-- Operators with two operands. -/
inductive BinaryOp where
  | plus | minus | times | div
  | equal | lessEqual | greaterEqual
  | and | or
deriving DecidableEq, Repr

/-- The name of an operation in diagnostics. -/
def BinaryOp.describe : BinaryOp → String
  | .plus => "sum"
  | .minus => "minus"
  | .times => "multiplication"
  | .div => "division"
  | .equal => "equal"
  | .lessEqual => "lesser-equal"
  | .greaterEqual => "greater-equal"
  | .and => "AND"
  | .or => "OR"

/-- Expressions. -/
inductive Expr where
  | int (value : Int32) (line : Nat)
  | bool (value : Bool) (line : Nat)
  | null (line : Nat)
  | binary (op : BinaryOp) (left right : Expr) (line : Nat)
  | not (operand : Expr) (line : Nat)
  | cond (condition thenBranch elseBranch : Expr) (line : Nat)
  | print (value : Expr) (line : Nat)
  | id (name : String) (resolution : Option Resolution) (line : Nat)
  | call (name : String) (args : List Expr) (resolution : Option Resolution) (line : Nat)
  /-- The resolution is that of the class name in the outermost frame. -/
  | new (className : String) (args : List Expr) (resolution : Option Resolution) (line : Nat)
  /-- The entry is that of the method in the table of the receiver's class. -/
  | methodCall (receiver : Expr) (method : String) (args : List Expr) (entry : Option Binding)
      (line : Nat)

instance : Inhabited Expr := ⟨.null 0⟩

/-- The line of an expression. -/
def Expr.line : Expr → Nat
  | .int _ l | .bool _ l | .null l | .binary _ _ _ l | .not _ l | .cond _ _ _ l | .print _ l
  | .id _ _ l | .call _ _ _ l | .new _ _ _ l | .methodCall _ _ _ _ l => l

/-- A name with a declared type: a parameter of a routine or a field of a class. -/
structure Formal where
  name : String
  type : Ty
  line : Nat
deriving DecidableEq

/-- What a function or a method announces: its name, result type and parameters. -/
structure Header where
  name : String
  result : Ty
  params : List Formal
  line : Nat
deriving DecidableEq

/-- The signature that a header announces. -/
def Header.signature (h : Header) : Signature := ⟨h.params.map (·.type), h.result⟩

/-- Declarations of variables and functions. -/
inductive Decl where
  | var (name : String) (type : Ty) (value : Expr) (line : Nat)
  | function (header : Header) (locals : List Decl) (body : Expr)

instance : Inhabited Decl := ⟨.var "" .int default 0⟩

/-- Methods, with their slot in the dispatch table where it is known. -/
structure Method where
  header : Header
  locals : List Decl
  body : Expr
  slot : Option Int32

/-- Classes. -/
structure ClassDecl where
  name : String
  fields : List Formal
  methods : List Method
  line : Nat

/-- A program: classes, then declarations, then an expression, or just an expression. -/
inductive Program where
  | letIn (classes : List ClassDecl) (decls : List Decl) (body : Expr)
  | expr (body : Expr)

/-- The expression whose value a program computes. -/
def Program.body : Program → Expr
  | .letIn _ _ e => e
  | .expr e => e

end FoolLang
