/-
Trees without decorations. A tree is bare when its uses have no declarations and its methods no slots, as in a tree
that has just been read; resolution changes nothing of a tree but its decorations.
-/
import FoolLang.Proofs.Scoping.Members

namespace FoolLang

open Scope

/-! ## Without decorations -/

mutual

/-- An expression without its decorations. -/
def Expr.bare : Expr → Expr
  | .int v l => .int v l
  | .bool v l => .bool v l
  | .null l => .null l
  | .binary op a b l => .binary op a.bare b.bare l
  | .not e l => .not e.bare l
  | .cond c a b l => .cond c.bare a.bare b.bare l
  | .print e l => .print e.bare l
  | .id name _ l => .id name none l
  | .call name args _ l => .call name (Expr.bareAll args) none l
  | .new c args _ l => .new c (Expr.bareAll args) none l
  | .methodCall receiver method args _ l => .methodCall receiver.bare method (Expr.bareAll args) none l

/-- Some expressions without their decorations. -/
def Expr.bareAll : List Expr → List Expr
  | [] => []
  | e :: es => e.bare :: Expr.bareAll es

end

mutual

/-- A declaration without its decorations. -/
def Decl.bare : Decl → Decl
  | .var name type value line => .var name type value.bare line
  | .function header locals body => .function header (Decl.bareAll locals) body.bare

/-- Some declarations without their decorations. -/
def Decl.bareAll : List Decl → List Decl
  | [] => []
  | d :: ds => d.bare :: Decl.bareAll ds

end

/-- A method without its decorations. -/
def Method.bare (m : Method) : Method :=
  { m with locals := Decl.bareAll m.locals, body := m.body.bare, slot := none }

/-- A class without its decorations. -/
def ClassDecl.bare (c : ClassDecl) : ClassDecl := { c with methods := c.methods.map Method.bare }

/-- A program without its decorations. -/
def Program.bare : Program → Program
  | .letIn classes decls body => .letIn (classes.map ClassDecl.bare) (Decl.bareAll decls) body.bare
  | .expr body => .expr body.bare

/-! ## Resolution decorates -/

mutual

theorem Expr.decorate_bare (s : Scope) : ∀ e : Expr, (e.decorate s).bare = e.bare
  | .int _ _ | .bool _ _ | .null _ | .id _ _ _ => rfl
  | .binary _ a b _ => by rw [Expr.decorate, Expr.bare, Expr.bare, decorate_bare s a, decorate_bare s b]
  | .not e _ | .print e _ => by rw [Expr.decorate, Expr.bare, Expr.bare, decorate_bare s e]
  | .cond c a b _ => by
    rw [Expr.decorate, Expr.bare, Expr.bare, decorate_bare s c, decorate_bare s a, decorate_bare s b]
  | .call _ args _ _ | .new _ args _ _ => by
    rw [Expr.decorate, Expr.bare, Expr.bare, decorateAll_bare s args]
  | .methodCall receiver _ args _ _ => by
    rw [Expr.decorate, Expr.bare, Expr.bare, decorate_bare s receiver, decorateAll_bare s args]

theorem Expr.decorateAll_bare (s : Scope) : ∀ es : List Expr,
    Expr.bareAll (Expr.decorateAll s es) = Expr.bareAll es
  | [] => rfl
  | e :: es => by rw [Expr.decorateAll, Expr.bareAll, Expr.bareAll, decorate_bare s e, decorateAll_bare s es]

end

theorem Expr.resolve_bare (e : Expr) (s : Scope) : (e.resolve.run s).1.bare = e.bare := e.decorate_bare s

mutual

theorem Decl.resolve_bare : ∀ (d : Decl) (s : Scope), (d.resolve.run s).1.bare = d.bare
  | .var name type _ line, s => congrArg (Decl.var name type · line) (Expr.resolve_bare _ s)
  | .function _ locals body, _ => congrArg₂ (Decl.function _) (Decl.resolveAll_bare locals _) (body.resolve_bare _)

theorem Decl.resolveAll_bare : ∀ (ds : List Decl) (s : Scope),
    Decl.bareAll ((Decl.resolveAll ds).run s).1 = Decl.bareAll ds
  | [], _ => rfl
  | d :: ds, s => congrArg₂ List.cons (Decl.resolve_bare d s) (Decl.resolveAll_bare ds _)

end

theorem Method.resolve_bare (m : Method) (s : Scope) : (m.resolve.run s).1.bare = m.bare :=
  congrArg₂ (fun locals body => ({ m with locals, body, slot := none } : Method)) (Decl.resolveAll_bare m.locals _)
    (m.body.resolve_bare _)

theorem Method.resolveAll_bare (ms : List Method) :
    ∀ s : Scope, ((Method.resolveAll ms).run s).1.map Method.bare = ms.map Method.bare := by
  induction ms with
  | nil => exact fun _ => rfl
  | cons m ms ih =>
    intro s
    cases hslot : m.slot with
    | none => rw [Method.resolveAll_cons_none hslot, List.map_cons, List.map_cons, ih]
    | some slot => rw [Method.resolveAll_cons_some hslot, List.map_cons, List.map_cons, ih, m.resolve_bare]

namespace ClassDecl

theorem declareMethods_bare (c : String) (ms : List Method) : ∀ (earlier : List Method) (slot : Int32) (s : Scope),
    ((declareMethods c earlier ms slot).run s).1.1.map Method.bare = ms.map Method.bare := by
  induction ms with
  | nil => exact fun _ _ _ => rfl
  | cons m ms ih =>
    intro earlier slot s
    rw [declareMethods]
    split
    · exact congrArg (m.bare :: ·) (ih (m :: earlier) slot _)
    · exact congrArg (m.bare :: ·) (ih (m :: earlier) (slot + 1) _)

theorem resolve_bare (c : ClassDecl) (s : Scope) : (c.resolve.run s).1.bare = c.bare := by
  rw [resolve_run]
  exact congrArg (fun ms => ({ c with methods := ms } : ClassDecl))
    ((Method.resolveAll_bare _ _).trans (declareMethods_bare c.name c.methods [] 0 _))

theorem resolveAll_bare (cs : List ClassDecl) :
    ∀ s : Scope, ((resolveAll cs).run s).1.map bare = cs.map bare := by
  induction cs with
  | nil => exact fun _ => rfl
  | cons c cs ih => exact fun s => congrArg₂ List.cons (c.resolve_bare s) (ih _)

end ClassDecl

/-- Resolution changes nothing of a program but its decorations. -/
theorem Program.resolve_bare (p : Program) : p.resolve.1.bare = p.bare := by
  cases p with
  | letIn classes decls body =>
    have hclasses := ClassDecl.resolveAll_bare classes .outermost
    have hdecls := Decl.resolveAll_bare decls ((ClassDecl.resolveAll classes).run .outermost).2
    have hbody := body.resolve_bare ((Decl.resolveAll decls).run ((ClassDecl.resolveAll classes).run .outermost).2).2
    show Program.letIn _ _ _ = Program.letIn _ _ _
    rw [← hclasses, ← hdecls, ← hbody]
    rfl
  | expr body => exact congrArg Program.expr (body.resolve_bare _)

/-! ## Bare trees are undecorated -/

mutual

theorem Expr.uses_bare : ∀ e : Expr, ∀ u ∈ e.bare.uses, u.resolution = none
  | .int _ _ | .bool _ _ | .null _ => fun _ hu => (List.not_mem_nil hu).elim
  | .binary _ a b _ => List.forall_mem_append.mpr ⟨uses_bare a, uses_bare b⟩
  | .not e _ | .print e _ => uses_bare e
  | .cond c a b _ => List.forall_mem_append.mpr ⟨List.forall_mem_append.mpr ⟨uses_bare c, uses_bare a⟩, uses_bare b⟩
  | .id _ _ _ => List.forall_mem_singleton.mpr rfl
  | .call _ args _ _ => List.forall_mem_cons.mpr ⟨rfl, usesAll_bareAll args⟩
  | .new _ args _ _ => usesAll_bareAll args
  | .methodCall receiver _ args _ _ => List.forall_mem_append.mpr ⟨uses_bare receiver, usesAll_bareAll args⟩

theorem Expr.usesAll_bareAll : ∀ es : List Expr, ∀ u ∈ Expr.usesAll (Expr.bareAll es), u.resolution = none
  | [] => fun _ hu => (List.not_mem_nil hu).elim
  | e :: es => List.forall_mem_append.mpr ⟨uses_bare e, usesAll_bareAll es⟩

end

mutual

theorem Decl.uses_bare : ∀ d : Decl, ∀ u ∈ d.bare.uses, u.resolution = none
  | .var _ _ value _ => value.uses_bare
  | .function _ locals body => List.forall_mem_append.mpr ⟨Decl.usesAll_bareAll locals, body.uses_bare⟩

theorem Decl.usesAll_bareAll : ∀ ds : List Decl, ∀ u ∈ Decl.usesAll (Decl.bareAll ds), u.resolution = none
  | [] => fun _ hu => (List.not_mem_nil hu).elim
  | d :: ds => List.forall_mem_append.mpr ⟨Decl.uses_bare d, Decl.usesAll_bareAll ds⟩

end

end FoolLang
