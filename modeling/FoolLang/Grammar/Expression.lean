/-
Expressions, read by the powers of their operators: a leading form, then trailing forms as long as
the next one binds tighter than the place asks for. Every form is written over a reader for its
parts; the reader for whole expressions closes the circle, nesting no deeper than tokens are left.
-/
import FoolLang.Grammar
import FoolLang.Grammar.Cursor
import FoolLang.Text.Numeral
import FoolLang.Tree

namespace FoolLang

open Reading

/-- A reader of expressions whose operators bind tighter than a power. -/
abbrev ExprReader := Power → Reading Expr

/-- The expression that a numeral is. -/
def numeral (text : String) (line : Nat) : Reading Expr :=
  match Text.int32? text.toList with
  | some n => return .int n line
  | none => throw ⟨.numberParseError text, line⟩

/-- The operator that a kind of token stands for. -/
def BinaryOp.ofKind? : Kind → Option BinaryOp
  | .plus => some .plus
  | .dash => some .minus
  | .star => some .times
  | .slash => some .div
  | .equals => some .equal
  | .lessEquals => some .lessEqual
  | .greaterEquals => some .greaterEqual
  | .and => some .and
  | .or => some .or
  | _ => none

/-- Arguments between parentheses. -/
def arguments (expr : ExprReader) : Reading (List Expr) := commaList (expr .default)

namespace Leading

/-- A number, a truth value or `null`. -/
def readLiteral : Reading Expr := do
  let t ← advance
  match t.kind with
  | .number => numeral t.value t.line
  | .kwTrue => return .bool true t.line
  | .kwFalse => return .bool false t.line
  | .kwNull => return .null t.line
  | _ => refuseToken t

/-- A name, or a call where arguments follow. -/
def readName (expr : ExprReader) : Reading Expr := do
  let t ← advance
  if (← kind) = .openParen then return .call t.value (← arguments expr) none t.line
  else return .id t.value none t.line

/-- A minus sign and a number. -/
def readNegative : Reading Expr := do
  let _ ← advance
  if (← kind) = .number then
    let t ← advance
    numeral (String.ofList ('-' :: t.value.toList)) t.line
  else refuse "only number literals can be negated"

/-- `! e` -/
def readNot (expr : ExprReader) : Reading Expr := do
  let t ← advance
  return .not (← expr .unary) t.line

/-- `( e )`, which leaves no trace. -/
def readGroup (expr : ExprReader) : Reading Expr := do
  let _ ← advance
  let e ← expr .default
  let _ ← expect .closeParen
  return e

/-- `new C ( args )` -/
def readNew (expr : ExprReader) : Reading Expr := do
  let _ ← advance
  let t ← expectAs .identifier "expected class name after new"
  return .new t.value (← arguments expr) none t.line

/-- An expression in braces. -/
def readBraced (expr : ExprReader) : Reading Expr := do
  let _ ← expect .openCurly
  let e ← expr .default
  let _ ← expect .closeCurly
  return e

/-- A condition with two branches in braces. -/
def readCond (expr : ExprReader) : Reading Expr := do
  let t ← advance
  let c ← expr .default
  let _ ← expect .kwThen
  let a ← readBraced expr
  let _ ← expect .kwElse
  let b ← readBraced expr
  return .cond c a b t.line

/-- `print ( e )` -/
def readPrint (expr : ExprReader) : Reading Expr := do
  let t ← advance
  let _ ← expect .openParen
  let e ← expr .default
  let _ ← expect .closeParen
  return .print e t.line

/-- Reads a leading form. -/
def read (expr : ExprReader) : Leading → Reading Expr
  | literal => readLiteral
  | name => readName expr
  | negative => readNegative
  | not => readNot expr
  | group => readGroup expr
  | new => readNew expr
  | cond => readCond expr
  | print => readPrint expr

end Leading

namespace Trailing

/-- An operator and its right operand, whose own operators bind tighter. -/
def readBinary (expr : ExprReader) (left : Expr) (power : Power) : Reading Expr := do
  let t ← advance
  match BinaryOp.ofKind? t.kind with
  | some op => return .binary op left (← expr power) t.line
  | none => refuseToken t

/-- A dot, the name of a method and its arguments. -/
def readMethodCall (expr : ExprReader) (receiver : Expr) : Reading Expr := do
  let _ ← advance
  let t ← expectAs .identifier "expected method name after `.`"
  if (← kind) = .openParen then
    return .methodCall receiver t.value (← arguments expr) none t.line
  else refuse "fields are not accessible with `.`, expected a method call"

/-- Reads a trailing form. -/
def read (expr : ExprReader) (left : Expr) (power : Power) : Trailing → Reading Expr
  | binary => readBinary expr left power
  | methodCall => readMethodCall expr left

end Trailing

namespace Grammar

/-- Goes on from an expression with at most a number of trailing forms tighter than a power. -/
def extend (g : Grammar) (expr : ExprReader) (power : Power) : Nat → Expr → Reading Expr
  | 0, left => return left
  | n + 1, left => do
    match g.trailing (← kind) with
    | some (tighter, form) =>
      if power < tighter then
        let e ← form.read expr left tighter
        extend g expr power n e
      else return left
    | none => return left

/-- Reads an expression that nests at most a number of levels deep. -/
def exprWithin (g : Grammar) : Nat → ExprReader
  | 0, _ => do refuseToken (← get).current
  | depth + 1, power => do
    match g.leading (← kind) with
    | some form =>
      let left ← form.read (exprWithin g depth)
      extend g (exprWithin g depth) power ((← remaining) + 1) left
    | none => refuseToken (← get).current

/-- Reads an expression. -/
def expr (g : Grammar) : ExprReader := fun power => do
  exprWithin g ((← remaining) + 1) power

end Grammar

end FoolLang
