/-
The concrete grammar, as a relation between token lists and trees that does not mention the reader.
Expressions are graded by how tightly their outermost operator binds: 1 `&& ||`, 2 `== <= >=`,
3 `+ -`, 4 `* /`, 5 `!`, 6 `.`; a form in brackets, a name, a call and a literal fit everywhere.
The left operand of an operator is of its own grade and the right one of the next, so operators
associate to the left. Every node carries the line of its defining token.
-/
import FoolLang.Grammar.Declaration

namespace FoolLang

/-- How tightly an operator binds, from 1 upward. -/
def BinaryOp.tightness : BinaryOp → Nat
  | .and | .or => 1
  | .equal | .lessEqual | .greaterEqual => 2
  | .plus | .minus => 3
  | .times | .div => 4

/-- The mark that an operator is written by. -/
def BinaryOp.mark : BinaryOp → Kind
  | .plus => .plus
  | .minus => .dash
  | .times => .star
  | .div => .slash
  | .equal => .equals
  | .lessEqual => .lessEquals
  | .greaterEqual => .greaterEquals
  | .and => .and
  | .or => .or

namespace Phrases

/-! ## Lists -/

section Lists

variable {α : Type} (R : List Token → α → Prop)

/-- Items one after the other. -/
inductive Sequence : List Token → List α → Prop
  | nil : Sequence [] []
  | cons {ts us : List Token} {a : α} {as : List α} (item : R ts a) (rest : Sequence us as) :
    Sequence (ts ++ us) (a :: as)

/-- One or more items with commas between them. -/
inductive Items : List Token → List α → Prop
  | one {ts : List Token} {a : α} (item : R ts a) : Items ts [a]
  | more {ts us : List Token} {comma : Token} {a : α} {as : List α} (item : R ts a)
    (hc : comma.kind = .comma) (rest : Items us as) : Items (ts ++ comma :: us) (a :: as)

/-- Items in parentheses, or none. -/
inductive Listed : List Token → List α → Prop
  | none {l r : Token} (hl : l.kind = .openParen) (hr : r.kind = .closeParen) : Listed [l, r] []
  | some {l r : Token} {ts : List Token} {as : List α} (hl : l.kind = .openParen)
    (items : Items R ts as) (hr : r.kind = .closeParen) : Listed (l :: ts ++ [r]) as

end Lists

/-! ## Expressions -/

/-- What a derivation of the expression grammar is of. -/
inductive Phrase where
  /-- An expression of a grade: 1 for any, 5 for the operand of `!`, 6 for a receiver. -/
  | expr (grade : Nat) (e : Expr)
  /-- One or more expressions with commas between them. -/
  | items (es : List Expr)
  /-- Arguments in parentheses. -/
  | arguments (es : List Expr)

/-- The tokens that derive a phrase. -/
inductive Derives : List Token → Phrase → Prop
  | number {t : Token} {v : Int32} {n : Nat} (ht : t.kind = .number)
    (hv : Text.int32? t.value.toList = some v) : Derives [t] (.expr n (.int v t.line))
  | negative {d t : Token} {v : Int32} {n : Nat} (hd : d.kind = .dash) (ht : t.kind = .number)
    (hv : Text.int32? ('-' :: t.value.toList) = some v) : Derives [d, t] (.expr n (.int v t.line))
  | kwTrue {t : Token} {n : Nat} (ht : t.kind = .kwTrue) : Derives [t] (.expr n (.bool true t.line))
  | kwFalse {t : Token} {n : Nat} (ht : t.kind = .kwFalse) :
    Derives [t] (.expr n (.bool false t.line))
  | null {t : Token} {n : Nat} (ht : t.kind = .kwNull) : Derives [t] (.expr n (.null t.line))
  | name {t : Token} {n : Nat} (ht : t.kind = .identifier) :
    Derives [t] (.expr n (.id t.value none t.line))
  | call {t : Token} {ts : List Token} {es : List Expr} {n : Nat} (ht : t.kind = .identifier)
    (args : Derives ts (.arguments es)) :
    Derives (t :: ts) (.expr n (.call t.value es none t.line))
  | group {l r : Token} {ts : List Token} {e : Expr} {n : Nat} (hl : l.kind = .openParen)
    (inner : Derives ts (.expr 1 e)) (hr : r.kind = .closeParen) :
    Derives (l :: ts ++ [r]) (.expr n e)
  | new {k t : Token} {ts : List Token} {es : List Expr} {n : Nat} (hk : k.kind = .kwNew)
    (ht : t.kind = .identifier) (args : Derives ts (.arguments es)) :
    Derives (k :: t :: ts) (.expr n (.new t.value es none t.line))
  | cond {i th el l₁ r₁ l₂ r₂ : Token} {cs as bs : List Token} {c a b : Expr} {n : Nat}
    (hi : i.kind = .kwIf) (condition : Derives cs (.expr 1 c)) (hth : th.kind = .kwThen)
    (hl₁ : l₁.kind = .openCurly) (thenBranch : Derives as (.expr 1 a))
    (hr₁ : r₁.kind = .closeCurly) (hel : el.kind = .kwElse) (hl₂ : l₂.kind = .openCurly)
    (elseBranch : Derives bs (.expr 1 b)) (hr₂ : r₂.kind = .closeCurly) :
    Derives (i :: cs ++ th :: l₁ :: as ++ r₁ :: el :: l₂ :: bs ++ [r₂])
      (.expr n (.cond c a b i.line))
  | print {k l r : Token} {ts : List Token} {e : Expr} {n : Nat} (hk : k.kind = .kwPrint)
    (hl : l.kind = .openParen) (value : Derives ts (.expr 1 e)) (hr : r.kind = .closeParen) :
    Derives (k :: l :: ts ++ [r]) (.expr n (.print e k.line))
  | methodCall {d t : Token} {rs ts : List Token} {r : Expr} {es : List Expr} {n : Nat} (hn : n ≤ 6)
    (receiver : Derives rs (.expr 6 r)) (hd : d.kind = .dot) (ht : t.kind = .identifier)
    (args : Derives ts (.arguments es)) :
    Derives (rs ++ d :: t :: ts) (.expr n (.methodCall r t.value es none t.line))
  | not {t : Token} {ts : List Token} {e : Expr} {n : Nat} (hn : n ≤ 5) (ht : t.kind = .not)
    (operand : Derives ts (.expr 5 e)) : Derives (t :: ts) (.expr n (.not e t.line))
  | binary {op : BinaryOp} {t : Token} {ls rs : List Token} {l r : Expr} {n : Nat}
    (hn : n ≤ op.tightness) (left : Derives ls (.expr op.tightness l)) (ht : t.kind = op.mark)
    (right : Derives rs (.expr (op.tightness + 1) r)) :
    Derives (ls ++ t :: rs) (.expr n (.binary op l r t.line))
  | one {ts : List Token} {e : Expr} (item : Derives ts (.expr 1 e)) : Derives ts (.items [e])
  | more {ts us : List Token} {comma : Token} {e : Expr} {es : List Expr}
    (item : Derives ts (.expr 1 e)) (hc : comma.kind = .comma) (rest : Derives us (.items es)) :
    Derives (ts ++ comma :: us) (.items (e :: es))
  | noArguments {l r : Token} (hl : l.kind = .openParen) (hr : r.kind = .closeParen) :
    Derives [l, r] (.arguments [])
  | arguments {l r : Token} {ts : List Token} {es : List Expr} (hl : l.kind = .openParen)
    (items : Derives ts (.items es)) (hr : r.kind = .closeParen) :
    Derives (l :: ts ++ [r]) (.arguments es)

/-- The tokens that derive an expression. -/
def IsExpr (ts : List Token) (e : Expr) : Prop := Derives ts (.expr 1 e)

/-! ## Types and names with types -/

/-- A type is one token. -/
inductive IsType : Token → Ty → Prop
  | int {t : Token} (ht : t.kind = .kwInt) : IsType t .int
  | bool {t : Token} (ht : t.kind = .kwBool) : IsType t .bool
  | ref {t : Token} (ht : t.kind = .identifier) : IsType t (.ref t.value)

/-- `x : T` -/
inductive IsFormal : List Token → Formal → Prop
  | intro {x c t : Token} {type : Ty} (hx : x.kind = .identifier) (hc : c.kind = .colon)
    (ht : IsType t type) : IsFormal [x, c, t] ⟨x.value, type, x.line⟩

/-- `fun f : T ( params )` -/
inductive IsHeader : List Token → Header → Prop
  | intro {k f c t : Token} {ts : List Token} {result : Ty} {params : List Formal}
    (hk : k.kind = .kwFun) (hf : f.kind = .identifier) (hc : c.kind = .colon)
    (ht : IsType t result) (list : Listed IsFormal ts params) :
    IsHeader (k :: f :: c :: t :: ts) ⟨f.value, result, params, k.line⟩

/-! ## Declarations, classes and programs -/

/-- What a derivation of the grammar of declarations is of. -/
inductive DeclPhrase where
  | decl (d : Decl)
  | decls (ds : List Decl)
  /-- The local declarations of a routine, between `let` and `in` where there are any. -/
  | locals (ds : List Decl)

/-- The tokens that derive declarations. -/
inductive DeclDerives : List Token → DeclPhrase → Prop
  | var {k x c t a s : Token} {vs : List Token} {type : Ty} {value : Expr} (hk : k.kind = .kwVar)
    (hx : x.kind = .identifier) (hc : c.kind = .colon) (ht : IsType t type)
    (ha : a.kind = .assignment) (hv : IsExpr vs value) (hs : s.kind = .semicolon) :
    DeclDerives (k :: x :: c :: t :: a :: vs ++ [s]) (.decl (.var x.value type value k.line))
  | function {hs ls bs : List Token} {s : Token} {header : Header} {ds : List Decl} {body : Expr}
    (hh : IsHeader hs header) (hl : DeclDerives ls (.locals ds)) (hb : IsExpr bs body)
    (hsemi : s.kind = .semicolon) :
    DeclDerives (hs ++ (ls ++ (bs ++ [s]))) (.decl (.function header ds body))
  | nil : DeclDerives [] (.decls [])
  | cons {ts us : List Token} {d : Decl} {ds : List Decl} (first : DeclDerives ts (.decl d))
    (rest : DeclDerives us (.decls ds)) : DeclDerives (ts ++ us) (.decls (d :: ds))
  | noLocals : DeclDerives [] (.locals [])
  | locals {l i : Token} {ts : List Token} {d : Decl} {ds : List Decl} (hl : l.kind = .kwLet)
    (decls : DeclDerives ts (.decls (d :: ds))) (hi : i.kind = .kwIn) :
    DeclDerives (l :: ts ++ [i]) (.locals (d :: ds))

/-- The tokens that derive a declaration. -/
def IsDecl (ts : List Token) (d : Decl) : Prop := DeclDerives ts (.decl d)

/-- A method is written as a function. -/
inductive IsMethod : List Token → Method → Prop
  | intro {hs ls bs : List Token} {s : Token} {header : Header} {ds : List Decl} {body : Expr}
    (hh : IsHeader hs header) (hl : DeclDerives ls (.locals ds)) (hb : IsExpr bs body)
    (hsemi : s.kind = .semicolon) : IsMethod (hs ++ (ls ++ (bs ++ [s]))) ⟨header, ds, body, none⟩

/-- `class C ( fields ) { methods }` -/
inductive IsClass : List Token → ClassDecl → Prop
  | intro {k n l r : Token} {fs ms : List Token} {fields : List Formal} {methods : List Method}
    (hk : k.kind = .kwClass) (hn : n.kind = .identifier) (hf : Listed IsFormal fs fields)
    (hl : l.kind = .openCurly) (hm : Sequence IsMethod ms methods) (hr : r.kind = .closeCurly) :
    IsClass (k :: n :: (fs ++ l :: (ms ++ [r]))) ⟨n.value, fields, methods, k.line⟩

/-- The tokens that derive a program. -/
inductive IsProgram : List Token → Program → Prop
  | expr {bs : List Token} {s : Token} {body : Expr} (hb : IsExpr bs body)
    (hs : s.kind = .semicolon) : IsProgram (bs ++ [s]) (.expr body)
  | letIn {l i s : Token} {cs ds bs : List Token} {classes : List ClassDecl} {decls : List Decl}
    {body : Expr} (hl : l.kind = .kwLet) (hc : Sequence IsClass cs classes)
    (hd : Sequence IsDecl ds decls) (hne : classes ≠ [] ∨ decls ≠ []) (hi : i.kind = .kwIn)
    (hb : IsExpr bs body) (hs : s.kind = .semicolon) :
    IsProgram (l :: (cs ++ (ds ++ i :: (bs ++ [s])))) (.letIn classes decls body)

end Phrases

end FoolLang
