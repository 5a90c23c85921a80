/-
The lines of a tree are those of its nodes. Decorations have no part in them, so resolution leaves them as they are.
-/
import FoolLang.Proofs.Scoping.Bare

namespace FoolLang

/-! ## Lines of trees -/

mutual

/-- The lines of an expression and of those in it. -/
def Expr.lines : Expr → List Nat
  | .int _ l | .bool _ l | .null l | .id _ _ l => [l]
  | .binary _ a b l => l :: (a.lines ++ b.lines)
  | .not e l | .print e l => l :: e.lines
  | .cond c a b l => l :: (c.lines ++ a.lines ++ b.lines)
  | .call _ args _ l | .new _ args _ l => l :: Expr.linesAll args
  | .methodCall receiver _ args _ l => l :: (receiver.lines ++ Expr.linesAll args)

/-- The lines of some expressions and of those in them. -/
def Expr.linesAll : List Expr → List Nat
  | [] => []
  | e :: es => e.lines ++ Expr.linesAll es

end

/-- The lines of a header and its parameters. -/
def Header.lines (h : Header) : List Nat := h.line :: h.params.map (·.line)

mutual

/-- The lines in a declaration. -/
def Decl.lines : Decl → List Nat
  | .var _ _ value l => l :: value.lines
  | .function header locals body => header.lines ++ (Decl.linesAll locals ++ body.lines)

/-- The lines in some declarations. -/
def Decl.linesAll : List Decl → List Nat
  | [] => []
  | d :: ds => d.lines ++ Decl.linesAll ds

end

/-- The lines in a method. -/
def Method.lines (m : Method) : List Nat := m.header.lines ++ (Decl.linesAll m.locals ++ m.body.lines)

/-- The lines in a class. -/
def ClassDecl.lines (c : ClassDecl) : List Nat :=
  c.line :: (c.fields.map (·.line) ++ c.methods.flatMap Method.lines)

/-- The lines in a program. -/
def Program.lines : Program → List Nat
  | .letIn classes decls body => classes.flatMap ClassDecl.lines ++ (Decl.linesAll decls ++ body.lines)
  | .expr body => body.lines

/-! ## Lines without decorations -/

mutual

theorem Expr.lines_bare : ∀ e : Expr, e.bare.lines = e.lines
  | .int _ _ | .bool _ _ | .null _ | .id _ _ _ => rfl
  | .binary _ a b l => by rw [Expr.bare, Expr.lines, Expr.lines, lines_bare a, lines_bare b]
  | .not e _ | .print e _ => by rw [Expr.bare, Expr.lines, Expr.lines, lines_bare e]
  | .cond c a b _ => by rw [Expr.bare, Expr.lines, Expr.lines, lines_bare c, lines_bare a, lines_bare b]
  | .call _ args _ _ | .new _ args _ _ => by rw [Expr.bare, Expr.lines, Expr.lines, linesAll_bareAll args]
  | .methodCall receiver _ args _ _ => by
    rw [Expr.bare, Expr.lines, Expr.lines, lines_bare receiver, linesAll_bareAll args]

theorem Expr.linesAll_bareAll : ∀ es : List Expr, Expr.linesAll (Expr.bareAll es) = Expr.linesAll es
  | [] => rfl
  | e :: es => by rw [Expr.bareAll, Expr.linesAll, Expr.linesAll, lines_bare e, linesAll_bareAll es]

end

mutual

theorem Decl.lines_bare : ∀ d : Decl, d.bare.lines = d.lines
  | .var _ _ value _ => by rw [Decl.bare, Decl.lines, Decl.lines, value.lines_bare]
  | .function _ locals body => by
    rw [Decl.bare, Decl.lines, Decl.lines, Decl.linesAll_bareAll locals, body.lines_bare]

theorem Decl.linesAll_bareAll : ∀ ds : List Decl, Decl.linesAll (Decl.bareAll ds) = Decl.linesAll ds
  | [] => rfl
  | d :: ds => by rw [Decl.bareAll, Decl.linesAll, Decl.linesAll, Decl.lines_bare d, Decl.linesAll_bareAll ds]

end

theorem Method.lines_bare (m : Method) : m.bare.lines = m.lines := by
  simp only [Method.lines, Method.bare, Decl.linesAll_bareAll, Expr.lines_bare]

theorem ClassDecl.lines_bare (c : ClassDecl) : c.bare.lines = c.lines := by
  simp only [ClassDecl.lines, ClassDecl.bare, List.flatMap_map, Method.lines_bare]

theorem Program.lines_bare (p : Program) : p.bare.lines = p.lines := by
  cases p with
  | letIn => simp only [Program.lines, Program.bare, List.flatMap_map, ClassDecl.lines_bare, Decl.linesAll_bareAll,
      Expr.lines_bare]
  | expr body => exact body.lines_bare

/-- Resolution leaves the lines of a program as they are. -/
theorem Program.lines_resolve (p : Program) : p.resolve.1.lines = p.lines := by
  rw [← Program.lines_bare, p.resolve_bare, p.lines_bare]

end FoolLang
