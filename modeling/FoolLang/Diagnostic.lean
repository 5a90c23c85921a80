/-
Diagnostics: what is wrong with a program text, at which line, which phase found it, and how the
finding is worded. A cause carries the names and type texts that its wording needs.
-/
import FoolLang.Text.Quoted

namespace FoolLang

/-- The stages of compilation that report problems. -/
inductive Phase where
  | reading | resolution | typing | internal
deriving DecidableEq, Repr

/-- The name of a phase. -/
def Phase.name : Phase → String
  | .reading => "Syntax"
  | .resolution => "Resolution"
  | .typing => "Type"
  | .internal => "Internal"

/-- Why a program, or a text of assembly, is refused. -/
inductive Cause where
  | unrecognisedToken (token : String)
  | unexpectedToken (token : String)
  | unexpectedTokenDetailed (token message : String)
  | numberParseError (token : String)
  | alreadyDeclared (kind identifier : String)
  | notDeclared (kind identifier : String)
  | classNotDeclared (className : String)
  | notAClassVariable (receiver : String)
  | methodNotDeclared (className method : String)
  | duplicateField (className field : String)
  | duplicateMethod (className method : String)
  | nonIntegerOperands (operation : String)
  | nonBooleanOperands (operation : String)
  | incompatibleComparison (operation : String)
  | nonBooleanCondition
  | incompatibleBranches (thenType elseType : String)
  | incompatibleValue (name expected received : String)
  | wrongReturnType (kind function expected received : String)
  | notAFunction (identifier : String)
  | notAClass (identifier : String)
  | notAnObject (method : String)
  | wrongArgumentCount (callee : String) (expected received : Nat)
  | argumentTypeMatchError (callee : String) (position : Nat) (expected received : String)
  | functionAsValue (identifier : String)
  | classAsValue (identifier : String)
  | undecoratedNode (node : String)
deriving DecidableEq, Repr

namespace Cause

/-- The name under which a cause is shown. -/
def name : Cause → String
  | unrecognisedToken .. => "UnrecognisedToken"
  | unexpectedToken .. => "UnexpectedToken"
  | unexpectedTokenDetailed .. => "UnexpectedTokenDetailed"
  | numberParseError .. => "NumberParseError"
  | alreadyDeclared .. => "AlreadyDeclared"
  | notDeclared .. => "NotDeclared"
  | classNotDeclared .. => "ClassNotDeclared"
  | notAClassVariable .. => "NotAClassVariable"
  | methodNotDeclared .. => "MethodNotDeclared"
  | duplicateField .. => "DuplicateField"
  | duplicateMethod .. => "DuplicateMethod"
  | nonIntegerOperands .. => "NonIntegerOperands"
  | nonBooleanOperands .. => "NonBooleanOperands"
  | incompatibleComparison .. => "IncompatibleComparison"
  | nonBooleanCondition => "NonBooleanCondition"
  | incompatibleBranches .. => "IncompatibleBranches"
  | incompatibleValue .. => "IncompatibleValue"
  | wrongReturnType .. => "WrongReturnType"
  | notAFunction .. => "NotAFunction"
  | notAClass .. => "NotAClass"
  | notAnObject .. => "NotAnObject"
  | wrongArgumentCount .. => "WrongArgumentCount"
  | argumentTypeMatchError .. => "ArgumentTypeMatchError"
  | functionAsValue .. => "FunctionAsValue"
  | classAsValue .. => "ClassAsValue"
  | undecoratedNode .. => "UndecoratedNode"

/-- The phase that finds problems of this kind. -/
def phase : Cause → Phase
  | unrecognisedToken .. | unexpectedToken .. | unexpectedTokenDetailed ..
  | numberParseError .. => .reading
  | alreadyDeclared .. | notDeclared .. | classNotDeclared .. | notAClassVariable ..
  | methodNotDeclared .. | duplicateField .. | duplicateMethod .. => .resolution
  | undecoratedNode .. => .internal
  | nonIntegerOperands .. | nonBooleanOperands .. | incompatibleComparison ..
  | nonBooleanCondition | incompatibleBranches .. | incompatibleValue .. | wrongReturnType ..
  | notAFunction .. | notAClass .. | notAnObject .. | wrongArgumentCount ..
  | argumentTypeMatchError .. | functionAsValue .. | classAsValue .. => .typing

/-- What is wrong, in a phrase. Tokens are quoted, names stand bare. -/
def message : Cause → String
  | unrecognisedToken token => s!"unrecognised token: {Text.quote token}"
  | unexpectedToken token => s!"unexpected token: {Text.quote token}"
  | unexpectedTokenDetailed token message =>
    s!"unexpected token ({message}): {Text.quote token}"
  | numberParseError token => s!"error parsing number: {Text.quote token}"
  | alreadyDeclared kind identifier => s!"{kind} id {identifier} already declared"
  | notDeclared kind identifier => s!"{kind} id {identifier} not declared"
  | classNotDeclared className => s!"class {className} not declared"
  | notAClassVariable receiver => s!"invocation of a method on non-class value {receiver}"
  | methodNotDeclared className method => s!"method {method} not declared in class {className}"
  | duplicateField className field => s!"field {field} of class {className} already declared"
  | duplicateMethod className method => s!"method {method} of class {className} already declared"
  | nonIntegerOperands operation => s!"non integers in {operation}"
  | nonBooleanOperands operation => s!"non booleans in {operation}"
  | incompatibleComparison operation => s!"incompatible types in {operation}"
  | nonBooleanCondition => "non boolean condition in if"
  | incompatibleBranches .. => "incompatible types in then-else branches"
  | incompatibleValue name .. => s!"incompatible value for variable {name}"
  | wrongReturnType kind function .. => s!"wrong return type for {kind} {function}"
  | notAFunction identifier => s!"invocation of a non-function {identifier}"
  | notAClass identifier => s!"instantiation of a non-class {identifier}"
  | notAnObject method => s!"invocation of method {method} on a non-object value"
  | wrongArgumentCount callee .. =>
    s!"wrong number of parameters in the invocation of {callee}"
  | argumentTypeMatchError callee position .. =>
    s!"wrong type for {position}-th parameter in the invocation of {callee}"
  | functionAsValue identifier => s!"wrong usage of function identifier {identifier}"
  | classAsValue identifier => s!"wrong usage of class identifier {identifier}"
  | undecoratedNode node => s!"undecorated {node} reached code generation"

/-- Advice that goes with a cause, where there is any. Tokens and names stand bare. -/
def tip? : Cause → Option String
  | unexpectedToken token => some s!"Unexpected token: `{token}`, did you miss a semicolon?"
  | unexpectedTokenDetailed token message => some s!"Unexpected token: `{token}`, {message}"
  | numberParseError token =>
    some s!"Invalid number: `{token}`, is it above the integer limit?"
  | alreadyDeclared kind identifier =>
    some s!"{kind} `{identifier}` is already declared in this scope, the later declaration wins"
  | notDeclared kind identifier =>
    some (s!"{kind} `{identifier}` is not visible from here, " ++
      "declare it in this or an enclosing scope")
  | classNotDeclared className =>
    some ("Classes must be declared right after the outermost `let`, " ++
      s!"`{className}` is not one of them")
  | notAClassVariable receiver =>
    some s!"`{receiver}` does not have a class type, methods can only be invoked on objects"
  | methodNotDeclared className method => some s!"Class `{className}` has no method `{method}`"
  | duplicateField className field =>
    some s!"Field `{field}` appears twice in class `{className}`"
  | duplicateMethod className method =>
    some s!"Method `{method}` appears twice in class `{className}`"
  | wrongArgumentCount _ expected received =>
    some s!"Expected {expected} arguments, received {received}"
  | argumentTypeMatchError _ _ expected received =>
    some s!"Expected argument type `{expected}`, received `{received}`"
  | incompatibleValue _ expected received | wrongReturnType _ _ expected received =>
    some s!"Expected type `{expected}`, received `{received}`"
  | incompatibleBranches thenType elseType =>
    some s!"Branches have types `{thenType}` and `{elseType}`, neither is a subtype of the other"
  | functionAsValue identifier =>
    some s!"`{identifier}` is a function, call it with `{identifier}(...)`"
  | classAsValue identifier =>
    some s!"`{identifier}` is a class, instantiate it with `new {identifier}(...)`"
  | undecoratedNode _ =>
    some "Code generation reached a node that the earlier phases did not resolve"
  | unrecognisedToken _ | nonIntegerOperands _ | nonBooleanOperands _ | incompatibleComparison _
  | nonBooleanCondition | notAFunction _ | notAClass _ | notAnObject _ => none

end Cause

/-- A cause together with the line it was found at, as the tokens tell it. -/
structure Diagnostic where
  cause : Cause
  line : Nat
deriving DecidableEq, Repr

namespace Diagnostic

/-- The wording of a diagnostic: its cause, then its line. -/
def message (d : Diagnostic) : String := s!"{d.cause.message} at line {d.line}"

/-- The phase that reported a diagnostic. -/
def phase (d : Diagnostic) : Phase := d.cause.phase

/-- How many of some diagnostics a phase reported. -/
def tally (ds : List Diagnostic) (p : Phase) : Nat := ds.countP fun d => d.phase == p

end Diagnostic

end FoolLang
