/-
The tables that steer the reading of programs: which forms a token can begin, which forms it can
continue and how tightly they bind. The standard tables are those of the language; a reader can be
given others, from the empty ones upward.
-/
import FoolLang.Token

namespace FoolLang

/-- How tightly an operator holds its operands, from the loosest to the tightest. -/
inductive Power where
  | default
  | logical
  | relational
  | additive
  | multiplicative
  | unary
  | member
deriving DecidableEq, Repr

namespace Power

/-- The place of a power in the order of tightness. -/
def rank : Power → Nat
  | default => 0
  | logical => 1
  | relational => 2
  | additive => 3
  | multiplicative => 4
  | unary => 5
  | member => 6

instance : LT Power := ⟨fun p q => p.rank < q.rank⟩

instance (p q : Power) : Decidable (p < q) := inferInstanceAs (Decidable (p.rank < q.rank))

end Power

/-- The forms of expression that a token can begin. -/
inductive Leading where
  | literal | name | negative | not | group | new | cond | print
deriving DecidableEq, Repr

/-- The forms that go on from an expression already read. -/
inductive Trailing where
  | binary | methodCall
deriving DecidableEq, Repr

/-- The forms of declaration. -/
inductive DeclForm where
  | var | function
deriving DecidableEq, Repr

/-- The forms of type annotation. -/
inductive TypeForm where
  | primitive | className
deriving DecidableEq, Repr

/-- The form that each kind of token begins or continues, if any. -/
structure Grammar where
  leading : Kind → Option Leading
  trailing : Kind → Option (Power × Trailing)
  decl : Kind → Option DeclForm
  type : Kind → Option TypeForm

namespace Grammar

/-- The grammar without any form. -/
def empty : Grammar where
  leading _ := none
  trailing _ := none
  decl _ := none
  type _ := none

/-- The grammar of the language. -/
def standard : Grammar where
  leading
    | .number | .kwTrue | .kwFalse | .kwNull => some .literal
    | .identifier => some .name
    | .dash => some .negative
    | .not => some .not
    | .openParen => some .group
    | .kwNew => some .new
    | .kwIf => some .cond
    | .kwPrint => some .print
    | _ => none
  trailing
    | .and | .or => some (.logical, .binary)
    | .equals | .lessEquals | .greaterEquals => some (.relational, .binary)
    | .plus | .dash => some (.additive, .binary)
    | .star | .slash => some (.multiplicative, .binary)
    | .dot => some (.member, .methodCall)
    | _ => none
  decl
    | .kwVar => some .var
    | .kwFun => some .function
    | _ => none
  type
    | .kwInt | .kwBool => some .primitive
    | .identifier => some .className
    | _ => none

/-- A grammar in which a kind of token also begins a form. -/
def withLeading (g : Grammar) (kind : Kind) (form : Leading) : Grammar :=
  { g with leading := fun k => if k = kind then some form else g.leading k }

/-- A grammar in which a kind of token also continues an expression, with some power. -/
def withTrailing (g : Grammar) (kind : Kind) (power : Power) (form : Trailing) : Grammar :=
  { g with trailing := fun k => if k = kind then some (power, form) else g.trailing k }

end Grammar

end FoolLang
