/-
What has been reported does not steer a resolution: from a scope with more problems before its own it goes the same way,
and ends with the same problems behind those.
-/
import FoolLang.Proofs.Scoping.Idempotence

namespace FoolLang

open Scope

variable {s s' : Scope} {name kind : String} {b : Binding} {type : Ty} {line : Nat} {ps qs : List Diagnostic}

/-! ## Scopes -/

namespace Scope

/-- The scope as it is if some problems have been reported before its own. -/
def after (s : Scope) (ps : List Diagnostic) : Scope := { s with problems := ps ++ s.problems }

/-- The scope before any problem has been reported. -/
def cleared (s : Scope) : Scope := { s with problems := [] }

@[simp] theorem cleared_after (s : Scope) : s.cleared.after s.problems = s := by
  rw [after, cleared, List.append_nil]

@[simp] theorem after_level : (s.after ps).level = s.level := rfl

@[simp] theorem after_nextOffset : (s.after ps).nextOffset = s.nextOffset := rfl

@[simp] theorem after_after : (s.after ps).after qs = s.after (qs ++ ps) := by
  rw [after, after, after, List.append_assoc]

/-- What has been reported from a cleared scope on is all there is. -/
theorem Noted.cleared (h : s.cleared.Noted s') : s' = s.cleared.after s'.problems := by
  obtain ⟨more, rfl⟩ := h
  show _ = { s with problems := more ++ [] }
  rw [List.append_nil]
  rfl

theorem Inner.cleared (h : s.Inner s') : s.cleared.Inner s'.cleared := ⟨h.frames, h.level, h.classes, [], rfl⟩

@[simp] theorem report_after (c : Cause) : (s.after ps).report c line = (s.report c line).after ps := by
  rw [report, report, after, after, List.append_assoc]

@[simp] theorem declare_after : (s.after ps).declare kind name b line = (s.declare kind name b line).after ps := by
  have hframes : (s.after ps).frames = s.frames := rfl
  rw [declare, declare, hframes]
  cases s.frames with
  | nil => rfl
  | cons frame outer =>
    dsimp only
    split
    · rw [← report_after]; rfl
    · rfl

@[simp] theorem declareNext_after :
    (s.after ps).declareNext kind name type line = (s.declareNext kind name type line).after ps := by
  rw [declareNext, declareNext, ← declare_after]
  rfl

@[simp] theorem declareParams_after (params : List Formal) : ∀ (s : Scope) (offset : Int32),
    (s.after ps).declareParams params offset = (s.declareParams params offset).after ps := by
  induction params with
  | nil => exact fun _ _ => rfl
  | cons p params ih =>
    intro s offset
    rw [declareParams, declareParams, ← ih, ← declare_after]
    rfl

@[simp] theorem declareClass_after : (s.after ps).declareClass name b line = (s.declareClass name b line).after ps := by
  have hframes : (s.after ps).frames = s.frames := rfl
  rw [declareClass, declareClass, hframes]
  cases s.frames.getLast? with
  | none => rfl
  | some frame =>
    dsimp only
    split
    · rw [← report_after]; rfl
    · rfl

@[simp] theorem enter_after : (s.after ps).enter = s.enter.after ps := rfl

@[simp] theorem leave_after (offset : Int32) : (s.after ps).leave offset = (s.leave offset).after ps := rfl

end Scope

/-! ## Expressions -/

mutual

theorem Expr.decorate_after (s : Scope) (ps : List Diagnostic) : ∀ e : Expr, e.decorate (s.after ps) = e.decorate s
  | .int _ _ | .bool _ _ | .null _ | .id _ _ _ => rfl
  | .binary _ a b _ => by rw [Expr.decorate, Expr.decorate, decorate_after s ps a, decorate_after s ps b]
  | .not e _ | .print e _ => by rw [Expr.decorate, Expr.decorate, decorate_after s ps e]
  | .cond c a b _ => by
    rw [Expr.decorate, Expr.decorate, decorate_after s ps c, decorate_after s ps a, decorate_after s ps b]
  | .call _ args _ _ | .new _ args _ _ => by
    rw [Expr.decorate, Expr.decorate, decorateAll_after s ps args]
    rfl
  | .methodCall receiver _ args _ _ => by
    rw [Expr.decorate, Expr.decorate, decorate_after s ps receiver, decorateAll_after s ps args]
    rfl

theorem Expr.decorateAll_after (s : Scope) (ps : List Diagnostic) :
    ∀ es : List Expr, Expr.decorateAll (s.after ps) es = Expr.decorateAll s es
  | [] => rfl
  | e :: es => by rw [Expr.decorateAll, Expr.decorateAll, decorate_after s ps e, decorateAll_after s ps es]

end

mutual

theorem Expr.problems_after (s : Scope) (ps : List Diagnostic) : ∀ e : Expr, e.problems (s.after ps) = e.problems s
  | .int _ _ | .bool _ _ | .null _ | .id _ _ _ => rfl
  | .binary _ a b _ => by rw [Expr.problems, Expr.problems, problems_after s ps a, problems_after s ps b]
  | .not e _ | .print e _ => by rw [Expr.problems, Expr.problems, problems_after s ps e]
  | .cond c a b _ => by
    rw [Expr.problems, Expr.problems, problems_after s ps c, problems_after s ps a, problems_after s ps b]
  | .call _ args _ _ | .new _ args _ _ => by
    rw [Expr.problems, Expr.problems, problemsAll_after s ps args]
    rfl
  | .methodCall receiver _ args _ _ => by
    rw [Expr.problems, Expr.problems, problems_after s ps receiver, problemsAll_after s ps args,
      Expr.decorate_after s ps receiver]
    rfl

theorem Expr.problemsAll_after (s : Scope) (ps : List Diagnostic) :
    ∀ es : List Expr, Expr.problemsAll (s.after ps) es = Expr.problemsAll s es
  | [] => rfl
  | e :: es => by rw [Expr.problemsAll, Expr.problemsAll, problems_after s ps e, problemsAll_after s ps es]

end

/-- A step does the same whatever has been reported before. -/
def Resolving.Steady {α : Type} (x : Resolving α) : Prop :=
  ∀ (s : Scope) (ps : List Diagnostic), x.run (s.after ps) = ((x.run s).1, (x.run s).2.after ps)

theorem Expr.resolve_steady (e : Expr) : e.resolve.Steady := by
  intro s ps
  show (e.decorate (s.after ps), { s with problems := (ps ++ s.problems) ++ e.problems (s.after ps) }) = _
  rw [e.decorate_after, e.problems_after, List.append_assoc]
  rfl

/-! ## Declarations -/

mutual

theorem Decl.resolve_steady : ∀ d : Decl, d.resolve.Steady
  | .var _ _ value _ => by
    intro s ps
    have hvalue := value.resolve_steady s ps
    simp [Decl.resolve_var, hvalue]
  | .function header locals body => by
    intro s ps
    have hlocals := fun s => Decl.resolveAll_steady locals s ps
    have hbody := fun s => body.resolve_steady s ps
    simp [Decl.resolve_function, hlocals, hbody]

theorem Decl.resolveAll_steady : ∀ ds : List Decl, (Decl.resolveAll ds).Steady
  | [] => fun _ _ => rfl
  | d :: ds => by
    intro s ps
    have hd := Decl.resolve_steady d s ps
    have hds := Decl.resolveAll_steady ds (d.resolve.run s).2 ps
    simp only [Decl.resolveAll_cons, hd, hds]

end

/-! ## Methods and classes -/

theorem Method.resolve_steady (m : Method) : m.resolve.Steady := by
  intro s ps
  have hlocals := fun s => Decl.resolveAll_steady m.locals s ps
  have hbody := fun s => m.body.resolve_steady s ps
  simp [resolve_run, hlocals, hbody]

theorem Method.resolveAll_steady (ms : List Method) : (Method.resolveAll ms).Steady := by
  induction ms with
  | nil => exact fun _ _ => rfl
  | cons m ms ih =>
    intro s ps
    cases hm : m.slot with
    | none => rw [resolveAll_cons_none hm, resolveAll_cons_none hm, ih s ps]
    | some slot => rw [resolveAll_cons_some hm, resolveAll_cons_some hm, m.resolve_steady s ps, ih _ ps]

namespace ClassDecl

theorem declareFields_steady (c : String) (fs : List Formal) : ∀ (earlier : List Formal) (offset : Int32),
    (declareFields c earlier fs offset).Steady := by
  induction fs with
  | nil => exact fun _ _ _ _ => rfl
  | cons f fs ih =>
    intro earlier offset s ps
    simp only [declareFields_cons, report_after, after_level, declare_after, ih _ _ _ ps]
    split <;> rfl

theorem declareMethods_steady (c : String) (ms : List Method) : ∀ (earlier : List Method) (slot : Int32),
    (declareMethods c earlier ms slot).Steady := by
  induction ms with
  | nil => exact fun _ _ _ _ => rfl
  | cons m ms ih =>
    intro earlier slot s ps
    simp only [declareMethods_cons, report_after, after_level, declare_after, ih _ _ _ ps]
    split <;> rfl

theorem entered_after (c : ClassDecl) (s : Scope) (ps : List Diagnostic) :
    c.entered (s.after ps) = ((c.entered s).1, (c.entered s).2.after ps) := by
  have hfields := fun s => declareFields_steady c.name c.fields [] (-1) s ps
  have hmethods := fun s => declareMethods_steady c.name c.methods [] 0 s ps
  simp only [entered, enter_after, hfields, hmethods, ← declareClass_after]
  rfl

theorem resolve_steady (c : ClassDecl) : c.resolve.Steady := by
  intro s ps
  have hmethods := fun ms s => Method.resolveAll_steady ms s ps
  simp [resolve_entered, entered_after, hmethods]

theorem resolveAll_steady (cs : List ClassDecl) : (resolveAll cs).Steady := by
  induction cs with
  | nil => exact fun _ _ => rfl
  | cons c cs ih =>
    intro s ps
    have hc := c.resolve_steady s ps
    have hcs := ih (c.resolve.run s).2 ps
    simp only [resolveAll_cons, hc, hcs]

end ClassDecl

end FoolLang
