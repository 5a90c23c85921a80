/-
A place in a list of tokens, and the steps that every form is read with. The last token is one that
ends the program, and no step goes beyond it. A step that fails leaves the place where it stands.
-/
import FoolLang.Diagnostic
import FoolLang.Token

namespace FoolLang

/-- The current token and those after it. -/
structure Cursor where
  current : Token
  rest : List Token
deriving DecidableEq, Repr

namespace Cursor

/-- What follows a token, with an end on the line of the last one unless that is an end itself. -/
def closed : Token → List Token → List Token
  | t, [] => if t.kind = .eof then [] else [.atEnd t.line]
  | _, u :: ts => u :: closed u ts

/-- The first place in a list of tokens. -/
def ofTokens : List Token → Cursor
  | [] => ⟨.atEnd 1, []⟩
  | t :: ts => ⟨t, closed t ts⟩

/-- The place after this one; the last token stays current. -/
def next (c : Cursor) : Cursor :=
  match c.rest with
  | [] => c
  | t :: ts => ⟨t, ts⟩

/-- The kind of the token after the current one, or of the last token. -/
def peek (c : Cursor) : Kind := c.next.current.kind

/-- Whether the program goes on here. -/
def hasTokens (c : Cursor) : Bool := c.current.kind != .eof

end Cursor

/-- A reading of something from the tokens at a place, which moves on. -/
abbrev Reading := EStateM Diagnostic Cursor

namespace Reading

/-- The kind of the current token. -/
def kind : Reading Kind := return (← get).current.kind

/-- How many tokens follow the current one. -/
def remaining : Reading Nat := return (← get).rest.length

/-- Gives the current token and moves on. -/
def advance : Reading Token := do
  let c ← get
  set c.next
  return c.current

/-- The problem that the current token does not fit, with what was expected. -/
def unexpected (expected : String) : Reading Diagnostic := do
  let t := (← get).current
  return ⟨.unexpectedTokenDetailed t.value expected, t.line⟩

/-- Refuses the current token and says what was expected. -/
def refuse {α : Type} (expected : String) : Reading α := do throw (← unexpected expected)

/-- Refuses a token. -/
def refuseToken {α : Type} (t : Token) : Reading α := throw ⟨.unexpectedToken t.value, t.line⟩

/-- Takes a token of a kind. -/
def expect (k : Kind) : Reading Token := do
  let t := (← get).current
  if t.kind = k then advance else refuseToken t

/-- Takes a token of a kind, or says what was expected. -/
def expectAs (k : Kind) (expected : String) : Reading Token := do
  if (← get).current.kind = k then advance else refuse expected

/-- Reads items as long as the current kind passes a test, at most a number of times. -/
def manyUpTo {α : Type} (test : Kind → Bool) (item : Reading α) : Nat → Reading (List α)
  | 0 => return []
  | n + 1 => do
    if test (← kind) then
      let a ← item
      return a :: (← manyUpTo test item n)
    else return []

/--
Reads items, each of which takes a token at least, as long as the current kind passes a test that
the end of the program does not pass.
-/
def many {α : Type} (test : Kind → Bool) (item : Reading α) : Reading (List α) := do
  manyUpTo test item ((← remaining) + 1)

/-- Reads items between parentheses, with commas between them. -/
def commaList {α : Type} (item : Reading α) : Reading (List α) := do
  let _ ← expect .openParen
  let items ←
    if (← kind) = .closeParen then pure []
    else do
      let a ← item
      let more ← many (· == .comma) do
        let _ ← advance
        item
      pure (a :: more)
  let _ ← expect .closeParen
  return items

end Reading

end FoolLang
