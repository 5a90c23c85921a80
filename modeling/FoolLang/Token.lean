/-
Tokens of the language: their kinds, their spelling and the line they begin on. Keywords are words
with a kind of their own; marks are operators and punctuation.
-/

namespace FoolLang

/-- The kinds of tokens. -/
inductive Kind where
  /-- The end of the program. -/
  | eof
  | number
  | identifier
  | openCurly
  | closeCurly
  | openParen
  | closeParen
  | assignment
  | equals
  | not
  | lessEquals
  | greaterEquals
  | or
  | and
  | dot
  | semicolon
  | colon
  | comma
  | plus
  | dash
  | slash
  | star
  | kwLet
  | kwIn
  | kwVar
  | kwFun
  | kwClass
  | kwNew
  | kwNull
  | kwIf
  | kwThen
  | kwElse
  | kwPrint
  | kwTrue
  | kwFalse
  | kwInt
  | kwBool
deriving DecidableEq, Repr

namespace Kind

/-- The name under which a kind is shown. -/
def name : Kind → String
  | eof => "EOF"
  | number => "Number"
  | identifier => "Identifier"
  | openCurly => "OpenCurly"
  | closeCurly => "CloseCurly"
  | openParen => "OpenParen"
  | closeParen => "CloseParen"
  | assignment => "Assignment"
  | equals => "Equals"
  | not => "Not"
  | lessEquals => "LessEquals"
  | greaterEquals => "GreaterEquals"
  | or => "Or"
  | and => "And"
  | dot => "Dot"
  | semicolon => "Semicolon"
  | colon => "Colon"
  | comma => "Comma"
  | plus => "Plus"
  | dash => "Dash"
  | slash => "Slash"
  | star => "Star"
  | kwLet => "Let"
  | kwIn => "In"
  | kwVar => "Var"
  | kwFun => "Fun"
  | kwClass => "Class"
  | kwNew => "New"
  | kwNull => "Null"
  | kwIf => "If"
  | kwThen => "Then"
  | kwElse => "Else"
  | kwPrint => "Print"
  | kwTrue => "True"
  | kwFalse => "False"
  | kwInt => "Int"
  | kwBool => "Bool"

/-- The reserved words with their kinds. -/
def keywords : List (String × Kind) :=
  [("let", kwLet), ("in", kwIn), ("var", kwVar), ("fun", kwFun), ("class", kwClass),
    ("new", kwNew), ("null", kwNull), ("if", kwIf), ("then", kwThen), ("else", kwElse),
    ("print", kwPrint), ("true", kwTrue), ("false", kwFalse), ("int", kwInt), ("bool", kwBool)]

/-- The operators and the punctuation, each before any shorter one that it begins with. -/
def marks : List (String × Kind) :=
  [("\x7b", openCurly), ("\x7d", closeCurly), ("(", openParen), (")", closeParen), ("==", equals),
    ("=", assignment), ("<=", lessEquals), (">=", greaterEquals), ("!", not), ("||", or),
    ("&&", and), (".", dot), (";", semicolon), (":", colon), (",", comma), ("+", plus),
    ("-", dash), ("/", slash), ("*", star)]

/-- Every kind. -/
def all : List Kind :=
  [eof, number, identifier] ++ marks.map (·.2) ++ keywords.map (·.2)

/-- The kind of a reserved word. -/
def ofKeyword? (word : String) : Option Kind := keywords.lookup word

/-- The kind of a word: its own where it is reserved, else that of identifiers. -/
def ofWord (word : String) : Kind := (ofKeyword? word).getD identifier

theorem mem_all (k : Kind) : k ∈ all := by cases k <;> decide

end Kind

/-- A token: its kind, its text and the line it begins on, as counted in 32 bits. -/
structure Token where
  kind : Kind
  value : String
  line : Nat
deriving DecidableEq, Repr

namespace Token

/-- The token at the end of a program. -/
def atEnd (line : Nat) : Token := ⟨.eof, "EOF", line⟩

/-- A token as it is shown. -/
def text (t : Token) : String := s!"Token \x7b\nkind: {t.kind.name},\nvalue: {t.value}\x7d"

end Token

end FoolLang
