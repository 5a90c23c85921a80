/-
Resolution is idempotent: what it decorates it decorates the same way again, and a use that it leaves as it was it
leaves as it is. So a resolved tree is resolved to itself, with the same problems, in the same scope.
-/
import FoolLang.Proofs.Scoping.Locality

namespace FoolLang

open Scope

/-! ## Expressions -/

theorem orElse_orElse {α : Type} (a b : Option α) : (a <|> (a <|> b)) = (a <|> b) := by cases a <;> rfl

mutual

theorem Expr.decorate_decorate (s : Scope) : ∀ e : Expr, (e.decorate s).decorate s = e.decorate s
  | .int _ _ | .bool _ _ | .null _ => rfl
  | .binary _ a b _ => by rw [Expr.decorate, Expr.decorate, decorate_decorate s a, decorate_decorate s b]
  | .not e _ | .print e _ => by rw [Expr.decorate, Expr.decorate, decorate_decorate s e]
  | .cond c a b _ => by
    rw [Expr.decorate, Expr.decorate, decorate_decorate s c, decorate_decorate s a, decorate_decorate s b]
  | .id _ _ _ => by rw [Expr.decorate, Expr.decorate, orElse_orElse]
  | .call _ args _ _ => by rw [Expr.decorate, Expr.decorate, orElse_orElse, decorateAll_decorateAll s args]
  | .new c args _ _ => by
    rw [Expr.decorate, Expr.decorate, decorateAll_decorateAll s args]
    by_cases hc : s.classes.contains c = true
    · rw [if_pos hc, if_pos hc]
    · rw [if_neg hc, if_neg hc]
  | .methodCall receiver _ args _ _ => by
    -- The receiver is the same the second time, and so is the entry that it leads to.
    simp only [Expr.decorate, decorate_decorate s receiver, decorateAll_decorateAll s args, orElse_orElse]

theorem Expr.decorateAll_decorateAll (s : Scope) :
    ∀ es : List Expr, Expr.decorateAll s (Expr.decorateAll s es) = Expr.decorateAll s es
  | [] => rfl
  | e :: es => by rw [Expr.decorateAll, Expr.decorateAll, decorate_decorate s e, decorateAll_decorateAll s es]

end

mutual

theorem Expr.problems_decorate (s : Scope) : ∀ e : Expr, (e.decorate s).problems s = e.problems s
  | .int _ _ | .bool _ _ | .null _ | .id _ _ _ => rfl
  | .binary _ a b _ => by
    rw [Expr.decorate, Expr.problems, Expr.problems, problems_decorate s a, problems_decorate s b]
  | .not e _ | .print e _ => by rw [Expr.decorate, Expr.problems, Expr.problems, problems_decorate s e]
  | .cond c a b _ => by
    rw [Expr.decorate, Expr.problems, Expr.problems, problems_decorate s c, problems_decorate s a,
      problems_decorate s b]
  | .call _ args _ _ | .new _ args _ _ => by
    rw [Expr.decorate, Expr.problems, Expr.problems, problemsAll_decorateAll s args]
  | .methodCall receiver _ args _ _ => by
    rw [Expr.decorate, Expr.problems, Expr.problems, problems_decorate s receiver, problemsAll_decorateAll s args,
      Expr.decorate_decorate]

theorem Expr.problemsAll_decorateAll (s : Scope) :
    ∀ es : List Expr, Expr.problemsAll s (Expr.decorateAll s es) = Expr.problemsAll s es
  | [] => rfl
  | e :: es => by
    rw [Expr.decorateAll, Expr.problemsAll, Expr.problemsAll, problems_decorate s e, problemsAll_decorateAll s es]

end

theorem Expr.resolve_again (e : Expr) (s : Scope) : (e.resolve.run s).1.resolve.run s = e.resolve.run s := by
  show ((e.decorate s).decorate s, { s with problems := s.problems ++ (e.decorate s).problems s }) = _
  rw [e.decorate_decorate, e.problems_decorate]
  rfl

/-! ## Declarations -/

mutual

theorem Decl.resolve_again : ∀ (d : Decl) (s : Scope), (d.resolve.run s).1.resolve.run s = d.resolve.run s
  | .var _ _ value _, s => by
    have hvalue := value.resolve_again s
    simp only [Decl.resolve_var, hvalue]
  | .function header locals body, s => by
    let s₁ := s.declareNext "Fun" header.name (.arrow header.signature) header.line
    have hlocals := Decl.resolveAll_again locals (s₁.enter.declareParams header.params 1)
    have hbody := body.resolve_again ((Decl.resolveAll locals).run (s₁.enter.declareParams header.params 1)).2
    simp only [Decl.resolve_function, hlocals, hbody, s₁]

theorem Decl.resolveAll_again : ∀ (ds : List Decl) (s : Scope),
    (Decl.resolveAll ((Decl.resolveAll ds).run s).1).run s = (Decl.resolveAll ds).run s
  | [], _ => rfl
  | d :: ds, s => by
    have hd := Decl.resolve_again d s
    have hds := Decl.resolveAll_again ds (d.resolve.run s).2
    simp only [Decl.resolveAll_cons, hd, hds]

end

/-! ## Methods and classes -/

namespace Method

theorem resolve_run (m : Method) (s : Scope) : m.resolve.run s =
    let r₁ := (Decl.resolveAll m.locals).run (s.enter.declareParams m.header.params 1)
    let r₂ := m.body.resolve.run r₁.2
    ({ m with locals := r₁.1, body := r₂.1 }, r₂.2.leave s.nextOffset) := rfl

theorem resolve_again (m : Method) (s : Scope) : (m.resolve.run s).1.resolve.run s = m.resolve.run s := by
  have hlocals := Decl.resolveAll_again m.locals (s.enter.declareParams m.header.params 1)
  have hbody := m.body.resolve_again ((Decl.resolveAll m.locals).run (s.enter.declareParams m.header.params 1)).2
  simp only [resolve_run, hlocals, hbody]

theorem resolveAll_again (ms : List Method) : ∀ s : Scope,
    (resolveAll ((resolveAll ms).run s).1).run s = (resolveAll ms).run s := by
  induction ms with
  | nil => exact fun _ => rfl
  | cons m ms ih =>
    intro s
    cases hm : m.slot with
    | none => rw [resolveAll_cons_none hm, resolveAll_cons_none hm, ih]
    | some slot =>
      have hm' : (m.resolve.run s).1.slot = some slot := hm
      rw [resolveAll_cons_some hm, resolveAll_cons_some hm', m.resolve_again, ih]

end Method

namespace ClassDecl

/-- Methods that have the headers and slots of declared ones already are declared as they are. -/
theorem declareMethods_again (c : String) (ms : List Method) : ∀ (ms' earlier earlier' : List Method) (slot : Int32)
    (s : Scope), earlier'.map (·.header) = earlier.map (·.header) →
    ms'.map (·.header) = ((declareMethods c earlier ms slot).run s).1.1.map (·.header) →
    ms'.map (·.slot) = ((declareMethods c earlier ms slot).run s).1.1.map (·.slot) →
    (declareMethods c earlier' ms' slot).run s = ((ms', ((declareMethods c earlier ms slot).run s).1.2),
      ((declareMethods c earlier ms slot).run s).2) := by
  induction ms with
  | nil =>
    intro ms' earlier earlier' slot s he hheaders _
    rw [List.map_eq_nil_iff.mp (hheaders.trans rfl)]
    rfl
  | cons m ms ih =>
    intro ms' earlier earlier' slot s he hheaders hslots
    rw [declareMethods_cons] at hheaders hslots ⊢
    by_cases hsame : earlier.any m.sameAs = true
    · rw [if_pos hsame] at hheaders hslots ⊢
      obtain ⟨m', ms'', rfl, hm, hms⟩ := List.map_eq_cons_iff.mp hheaders
      rw [List.map_cons, List.map_cons, List.cons.injEq] at hslots
      have hsame' : earlier'.any m'.sameAs = true := (any_sameAs_congr hm he).trans hsame
      have hrest := ih ms'' (m :: earlier) (m' :: earlier') slot _ (by rw [List.map_cons, List.map_cons, hm, he])
        hms hslots.2
      rw [declareMethods_cons, if_pos hsame', hm, hrest]
    · rw [if_neg hsame] at hheaders hslots ⊢
      obtain ⟨m', ms'', rfl, hm, hms⟩ := List.map_eq_cons_iff.mp hheaders
      rw [List.map_cons, List.map_cons, List.cons.injEq] at hslots
      have hsame' : ¬ earlier'.any m'.sameAs = true := fun h => hsame ((any_sameAs_congr hm he).symm.trans h)
      have hm : m'.header = m.header := hm
      have hrest := ih ms'' (m :: earlier) (m' :: earlier') (slot + 1) _ (by rw [List.map_cons, List.map_cons, hm, he])
        hms hslots.2
      have hslot : { m' with slot := some slot } = m' := by
        have hs : m'.slot = some slot := hslots.1
        rw [← hs]
      rw [declareMethods_cons, if_neg hsame', hslot, hm, hrest]

theorem resolve_again (c : ClassDecl) (s : Scope) : (c.resolve.run s).1.resolve.run s = c.resolve.run s := by
  obtain ⟨hheaders, hslots⟩ := Method.resolveAll_map (c.entered s).1 (c.entered s).2
  have hdeclared := declareMethods_again c.name c.methods _ [] [] 0
    ((declareFields c.name [] c.fields (-1)).run s.enter).2 rfl hheaders hslots
  -- The class is entered the second time with its decorated methods, in the same scope.
  have hentered : (c.resolve.run s).1.entered s =
      (((Method.resolveAll (c.entered s).1).run (c.entered s).2).1, (c.entered s).2) := by
    rw [resolve_entered]
    simp only [entered] at hdeclared ⊢
    rw [hdeclared]
  have hmethods := Method.resolveAll_again (c.entered s).1 (c.entered s).2
  rw [resolve_entered (c.resolve.run s).1, hentered]
  simp only [hmethods]
  rw [resolve_entered]

theorem resolveAll_cons (c : ClassDecl) (cs : List ClassDecl) (s : Scope) :
    (resolveAll (c :: cs)).run s =
      let r₁ := c.resolve.run s
      let r₂ := (resolveAll cs).run r₁.2
      (r₁.1 :: r₂.1, r₂.2) := rfl

theorem resolveAll_again (cs : List ClassDecl) : ∀ s : Scope,
    (resolveAll ((resolveAll cs).run s).1).run s = (resolveAll cs).run s := by
  induction cs with
  | nil => exact fun _ => rfl
  | cons c cs ih =>
    intro s
    have hc := c.resolve_again s
    have hcs := ih (c.resolve.run s).2
    simp only [resolveAll_cons, hc, hcs]

end ClassDecl

/-! ## Programs -/

namespace Program

theorem resolve_letIn (classes : List ClassDecl) (decls : List Decl) (body : Expr) :
    (letIn classes decls body).resolve =
    let r₁ := (ClassDecl.resolveAll classes).run .outermost
    let r₂ := (Decl.resolveAll decls).run r₁.2
    let r₃ := body.resolve.run r₂.2
    (letIn r₁.1 r₂.1 r₃.1, r₃.2) := rfl

theorem resolve_expr (body : Expr) : (expr body).resolve =
    let r := body.resolve.run .outermost
    (expr r.1, r.2) := rfl

theorem resolve_again (p : Program) : p.resolve.1.resolve = p.resolve := by
  cases p with
  | letIn classes decls body =>
    let s₁ := ((ClassDecl.resolveAll classes).run .outermost).2
    have hclasses := ClassDecl.resolveAll_again classes .outermost
    have hdecls := Decl.resolveAll_again decls s₁
    have hbody := body.resolve_again ((Decl.resolveAll decls).run s₁).2
    simp only [resolve_letIn, hclasses, hdecls, hbody, s₁]
  | expr body =>
    have hbody := body.resolve_again .outermost
    simp only [resolve_expr, hbody]

end Program

end FoolLang
