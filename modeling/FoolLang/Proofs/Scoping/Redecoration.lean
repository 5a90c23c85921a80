/-
Old decorations do not matter. A use without a meaning keeps the decoration it had, but it is reported; so a tree with
decorations is resolved without a problem just when it is without them, and then with the same result.
-/
import FoolLang.Proofs.Scoping.Bare
import FoolLang.Proofs.Scoping.Idempotence
import FoolLang.Proofs.Static.Problems

namespace FoolLang

open Scope

variable {s : Scope}

/-! ## Uses without problems -/

theorem nil_of_append_nil {α : Type} {as as' bs bs' : List α} (h : as ++ bs = [] ∨ as' ++ bs' = []) :
    (as = [] ∨ as' = []) ∧ (bs = [] ∨ bs' = []) := by
  simp only [List.append_eq_nil_iff] at h
  exact ⟨h.imp And.left And.left, h.imp And.right And.right⟩

theorem some_orElse {α : Type} {o : Option α} (h : o.isSome = true) (p q : Option α) : (o <|> p) = (o <|> q) := by
  obtain ⟨a, rfl⟩ := Option.isSome_iff_exists.mp h
  rfl

mutual

/-- Where nothing is wrong with an expression or with its bare form, nothing of its decorations is left. -/
theorem Expr.decorate_of_problems : ∀ e : Expr, e.problems s = [] ∨ e.bare.problems s = [] →
    e.decorate s = e.bare.decorate s ∧ e.problems s = e.bare.problems s
  | .int _ _, _ | .bool _ _, _ | .null _, _ => ⟨rfl, rfl⟩
  | .binary _ a b _, h => by
    obtain ⟨ha, hb⟩ := nil_of_append_nil h
    obtain ⟨hda, hpa⟩ := decorate_of_problems a ha
    obtain ⟨hdb, hpb⟩ := decorate_of_problems b hb
    simp only [Expr.bare, Expr.decorate, Expr.problems, hda, hpa, hdb, hpb, and_self]
  | .not e _, h | .print e _, h => by
    obtain ⟨hd, hp⟩ := decorate_of_problems e h
    simp only [Expr.bare, Expr.decorate, Expr.problems, hd, hp, and_self]
  | .cond c a b _, h => by
    obtain ⟨hca, hb⟩ := nil_of_append_nil h
    obtain ⟨hc, ha⟩ := nil_of_append_nil hca
    obtain ⟨hdc, hpc⟩ := decorate_of_problems c hc
    obtain ⟨hda, hpa⟩ := decorate_of_problems a ha
    obtain ⟨hdb, hpb⟩ := decorate_of_problems b hb
    simp only [Expr.bare, Expr.decorate, Expr.problems, hdc, hpc, hda, hpa, hdb, hpb, and_self]
  | .id name r l, h => by
    have hp : (Expr.id name r l).problems s = [] := or_self_iff.mp h
    refine ⟨?_, rfl⟩
    rw [Expr.problems] at hp
    rw [Expr.bare, Expr.decorate, Expr.decorate, some_orElse]
    cases hl : s.lookup name with
    | none => rw [hl] at hp; cases hp
    | some b => rw [Scope.resolution?, hl]; rfl
  | .call name args r l, h => by
    obtain ⟨hname, hargs⟩ := nil_of_append_nil h
    have hname := or_self_iff.mp hname
    obtain ⟨hd, hp⟩ := decorateAll_of_problems args hargs
    refine ⟨?_, by rw [Expr.bare, Expr.problems, Expr.problems, hp]⟩
    rw [Expr.bare, Expr.decorate, Expr.decorate, hd, some_orElse]
    cases hl : s.lookup name with
    | none => rw [hl] at hname; cases hname
    | some b => rw [Scope.resolution?, hl]; rfl
  | .new c args r l, h => by
    obtain ⟨hclass, hargs⟩ := nil_of_append_nil h
    have hclass := or_self_iff.mp hclass
    obtain ⟨hd, hp⟩ := decorateAll_of_problems args hargs
    have hc : s.classes.contains c = true := by
      by_contra hc
      rw [if_neg hc] at hclass
      cases hclass
    rw [Expr.bare, Expr.decorate, Expr.decorate, Expr.problems, Expr.problems, hd, hp, if_pos hc, if_pos hc]
    exact ⟨rfl, rfl⟩
  | .methodCall receiver method args b l, h => by
    have hparts := h
    rw [Expr.bare] at hparts
    obtain ⟨hcall, hargs⟩ := nil_of_append_nil hparts
    obtain ⟨hreceiver, -⟩ := nil_of_append_nil hcall
    obtain ⟨hdr, hpr⟩ := decorate_of_problems receiver hreceiver
    obtain ⟨hda, hpa⟩ := decorateAll_of_problems args hargs
    have hproblems : (Expr.methodCall receiver method args b l).problems s =
        (Expr.methodCall receiver method args b l).bare.problems s := by
      rw [Expr.bare, Expr.problems, Expr.problems, hdr, hpr, hpa]
    refine ⟨?_, hproblems⟩
    have hnil := h.elim (fun hp => hp) hproblems.trans
    obtain ⟨hreceiver, hcall, -⟩ := Expr.callProblem?_of_problems hnil
    -- The receiver is the same in both, and has a class, so the call has an entry and its old one goes.
    rw [Expr.bare, Expr.decorate, Expr.decorate, ← hdr, ← hda,
      some_orElse (callEntry?_isSome (receiver.receiverClass?_ne_none hreceiver) hcall)]

theorem Expr.decorateAll_of_problems : ∀ es : List Expr,
    Expr.problemsAll s es = [] ∨ Expr.problemsAll s (Expr.bareAll es) = [] →
    Expr.decorateAll s es = Expr.decorateAll s (Expr.bareAll es) ∧
      Expr.problemsAll s es = Expr.problemsAll s (Expr.bareAll es)
  | [], _ => ⟨rfl, rfl⟩
  | e :: es, h => by
    obtain ⟨he, hes⟩ := nil_of_append_nil h
    obtain ⟨hd, hp⟩ := decorate_of_problems e he
    obtain ⟨hds, hps⟩ := decorateAll_of_problems es hes
    simp only [Expr.bareAll, Expr.decorateAll, Expr.problemsAll, hd, hp, hds, hps, and_self]

end

/-! ## Runs without problems -/

/-- Two runs end in the same way unless both end with problems. -/
def Concur {α : Type} (r r' : α × Scope) : Prop := r.2.problems = [] ∨ r'.2.problems = [] → r = r'

/-- Where one of two runs ends without problems, one of the scopes on their ways was without. -/
theorem Scope.Grows.clean {s₁ s₁' s₂ s₂' : Scope} (h : s₁.Grows s₂) (h' : s₁'.Grows s₂')
    (hs : s₂.problems = [] ∨ s₂'.problems = []) : s₁.problems = [] ∨ s₁'.problems = [] := hs.imp h.nil h'.nil

theorem Expr.resolve_concur (e : Expr) (s : Scope) : Concur (e.resolve.run s) (e.bare.resolve.run s) := by
  intro h
  obtain ⟨-, hproblems⟩ := nil_of_append_nil h
  obtain ⟨hd, hp⟩ := e.decorate_of_problems hproblems
  show (e.decorate s, { s with problems := s.problems ++ e.problems s }) = _
  rw [hd, hp]
  rfl

mutual

theorem Decl.resolve_concur : ∀ (d : Decl) (s : Scope), Concur (d.resolve.run s) (d.bare.resolve.run s)
  | .var name type value line, s => by
    intro h
    have hvalue := value.resolve_concur s (declareNext_grows.clean declareNext_grows h)
    rw [Decl.bare, Decl.resolve_var, Decl.resolve_var, hvalue]
  | .function header locals body, s => by
    intro h
    let s₁ := s.declareNext "Fun" header.name (.arrow header.signature) header.line
    -- The local declarations come first; as they concur, both bodies are resolved from one scope.
    have hlocals := Decl.resolveAll_concur locals (s₁.enter.declareParams header.params 1)
      ((body.resolve_grows _).clean (body.bare.resolve_grows _) h)
    rw [Decl.bare, Decl.resolve_function, Decl.resolve_function] at h ⊢
    simp only [hlocals, s₁] at h ⊢
    have hbody := body.resolve_concur _ h
    rw [hbody]

theorem Decl.resolveAll_concur : ∀ (ds : List Decl) (s : Scope),
    Concur ((Decl.resolveAll ds).run s) ((Decl.resolveAll (Decl.bareAll ds)).run s)
  | [], _ => fun _ => rfl
  | d :: ds, s => by
    intro h
    have hd := Decl.resolve_concur d s ((Decl.resolveAll_grows ds _).clean (Decl.resolveAll_grows _ _) h)
    rw [Decl.bareAll, Decl.resolveAll_cons, Decl.resolveAll_cons] at h ⊢
    simp only [hd] at h ⊢
    have hds := Decl.resolveAll_concur ds _ h
    rw [hds]

end

/-! ## Methods and classes -/

namespace Method

/-- A method with no decorations inside it. -/
def bareInside (m : Method) : Method := { m with locals := Decl.bareAll m.locals, body := m.body.bare }

theorem resolve_concur (m : Method) (s : Scope) : Concur (m.resolve.run s) (m.bareInside.resolve.run s) := by
  intro h
  have hlocals := Decl.resolveAll_concur m.locals (s.enter.declareParams m.header.params 1)
    ((m.body.resolve_grows _).clean (m.body.bare.resolve_grows _) h)
  rw [bareInside, resolve_run, resolve_run] at h ⊢
  simp only [hlocals] at h ⊢
  have hbody := m.body.resolve_concur _ h
  rw [hbody]

theorem resolveAll_concur (ms : List Method) : ∀ s : Scope, (∀ m ∈ ms, m.slot.isSome = true) →
    Concur ((resolveAll ms).run s) ((resolveAll (ms.map bareInside)).run s) := by
  induction ms with
  | nil => exact fun _ _ _ => rfl
  | cons m ms ih =>
    intro s hslots h
    obtain ⟨hm, hms⟩ := List.forall_mem_cons.mp hslots
    obtain ⟨slot, hm⟩ := Option.isSome_iff_exists.mp hm
    have hbare : m.bareInside.slot = some slot := hm
    rw [List.map_cons, resolveAll_cons_some hm, resolveAll_cons_some hbare] at h ⊢
    have hresolve := m.resolve_concur s ((resolveAll_grows ms _).clean (resolveAll_grows _ _) h)
    rw [hresolve] at h ⊢
    rw [ih _ hms h]

end Method

namespace ClassDecl

/--
What the methods of a class bind and what is reported of them are their headers' matter. A method that is not a
repetition gets a slot, whatever it had before, so if there are no problems there are no old slots.
-/
theorem declareMethods_bareInside (c : String) (ms : List Method) :
    ∀ (earlier : List Method) (slot : Int32) (s : Scope),
    let r := (declareMethods c earlier ms slot).run s
    let r' := (declareMethods c (earlier.map Method.bare) (ms.map Method.bare) slot).run s
    r'.2 = r.2 ∧ r'.1.2 = r.1.2 ∧
      (r.2.problems = [] → r'.1.1 = r.1.1.map Method.bareInside ∧ ∀ m ∈ r.1.1, m.slot.isSome = true) := by
  induction ms with
  | nil => exact fun _ _ _ => ⟨rfl, rfl, fun _ => ⟨rfl, fun _ hm => (List.not_mem_nil hm).elim⟩⟩
  | cons m ms ih =>
    intro earlier slot s
    have hany : (earlier.map Method.bare).any m.bare.sameAs = earlier.any m.sameAs :=
      any_sameAs_congr rfl (by rw [List.map_map]; rfl)
    simp only [List.map_cons, declareMethods_cons, hany]
    by_cases hsame : earlier.any m.sameAs = true
    · obtain ⟨hs, hsignatures, -⟩ := ih (m :: earlier) slot (s.report (.duplicateMethod c m.header.name) m.header.line)
      rw [if_pos hsame, if_pos hsame]
      exact ⟨hs, hsignatures, fun h => absurd ((declareMethods_grows c ms _ slot _).nil h) (report_ne_nil _)⟩
    · obtain ⟨hs, hsignatures, hclean⟩ := ih (m :: earlier) (slot + 1) (s.declare "Method" m.header.name
        ⟨s.level, .arrow m.header.signature, slot, true⟩ m.header.line)
      rw [if_neg hsame, if_neg hsame]
      refine ⟨hs, congrArg (m.header.signature :: ·) hsignatures, fun h => ?_⟩
      obtain ⟨hmethods, hslots⟩ := hclean h
      exact ⟨congrArg ({ m.bare with slot := some slot } :: ·) hmethods, List.forall_mem_cons.mpr ⟨rfl, hslots⟩⟩

theorem entered_bare (c : ClassDecl) (s : Scope) : (c.bare.entered s).2 = (c.entered s).2 ∧
    ((c.entered s).2.problems = [] → (c.bare.entered s).1 = (c.entered s).1.map Method.bareInside ∧
      ∀ m ∈ (c.entered s).1, m.slot.isSome = true) := by
  obtain ⟨hs, hsignatures, hclean⟩ := declareMethods_bareInside c.name c.methods [] 0
    ((declareFields c.name [] c.fields (-1)).run s.enter).2
  refine ⟨?_, fun h => hclean ?_⟩
  -- The tables are made from the headers, so they are the same even where there are problems.
  · rw [List.map_nil] at hs hsignatures
    simp only [entered, bare, hs, hsignatures]
  · have hproblems := declareClass_grows.nil h
    exact hproblems

theorem resolve_concur (c : ClassDecl) (s : Scope) : Concur (c.resolve.run s) (c.bare.resolve.run s) := by
  intro h
  obtain ⟨hs, hclean⟩ := c.entered_bare s
  have hentered : (c.entered s).2.problems = [] :=
    ((Method.resolveAll_grows (c.entered s).1 _).clean (Method.resolveAll_grows (c.bare.entered s).1 _) h).elim id
      fun h => hs ▸ h
  obtain ⟨hmethods, hslots⟩ := hclean hentered
  rw [resolve_entered, resolve_entered] at h ⊢
  simp only [hs, hmethods] at h ⊢
  rw [Method.resolveAll_concur _ _ hslots h]
  rfl

theorem resolveAll_concur (cs : List ClassDecl) : ∀ s : Scope,
    Concur ((resolveAll cs).run s) ((resolveAll (cs.map bare)).run s) := by
  induction cs with
  | nil => exact fun _ _ => rfl
  | cons c cs ih =>
    intro s h
    have hc := c.resolve_concur s ((resolveAll_grows cs _).clean (resolveAll_grows _ _) h)
    rw [List.map_cons, resolveAll_cons, resolveAll_cons] at h ⊢
    simp only [hc] at h ⊢
    rw [ih _ h]

end ClassDecl

/-! ## Programs -/

theorem Program.resolve_concur (p : Program) : Concur p.resolve p.bare.resolve := by
  intro h
  cases p with
  | letIn classes decls body =>
    have hclasses := ClassDecl.resolveAll_concur classes .outermost
      (((Decl.resolveAll_grows _ _).trans (body.resolve_grows _)).clean
        ((Decl.resolveAll_grows _ _).trans (body.bare.resolve_grows _)) h)
    rw [bare, resolve_letIn, resolve_letIn] at h ⊢
    simp only [hclasses] at h ⊢
    have hdecls := Decl.resolveAll_concur decls _ ((body.resolve_grows _).clean (body.bare.resolve_grows _) h)
    simp only [hdecls] at h ⊢
    have hbody := body.resolve_concur _ h
    rw [hbody]
  | expr body =>
    rw [bare, resolve_expr, resolve_expr] at h ⊢
    have hbody := body.resolve_concur _ h
    rw [hbody]

/--
To resolve what has been resolved changes nothing of it, nor of the scope or the problems. A program is resolved without
a problem just when it is without its decorations, and then to the same tree in the same scope.
-/
theorem Program.resolve_redecorated (p : Program) : p.resolve.1.resolve = p.resolve ∧
    (p.resolve.2.problems = [] ↔ p.bare.resolve.2.problems = []) ∧
    (p.resolve.2.problems = [] → p.resolve = p.bare.resolve) := by
  have hclean : p.resolve.2.problems = [] → p.resolve = p.bare.resolve := fun h => p.resolve_concur (.inl h)
  refine ⟨p.resolve_again, ⟨fun h => ?_, fun h => ?_⟩, hclean⟩
  · rw [← hclean h]
    exact h
  · rw [p.resolve_concur (.inr h)]
    exact h

/-- `let class A () { fun m:int () 3; } var a:A = new A(); in a.m();`, with decorations that are all wrong. -/
def misleading : Program :=
  let wrong : Binding := ⟨4, .bool, 9, false⟩
  .letIn [⟨"A", [], [⟨⟨"m", .int, [], 1⟩, [], .int 3 1, some 7⟩], 1⟩]
    [.var "a" (.ref "A") (.new "A" [] (some ⟨wrong, 8⟩) 1) 1]
    (.methodCall (.id "a" (some ⟨wrong, 8⟩) 1) "m" [] (some wrong) 1)

theorem resolve_redecorated_misleading : misleading.resolve.2.problems = [] ∧
    misleading.resolve = misleading.bare.resolve :=
  have hclean : misleading.resolve.2.problems = [] := by decide +kernel
  ⟨hclean, misleading.resolve_redecorated.2.2 hclean⟩

end FoolLang
