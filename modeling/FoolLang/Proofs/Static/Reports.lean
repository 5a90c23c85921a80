/-
What resolution reports. Every use that is read gets its declaration or a report of its own, in the order of the uses;
only a method call whose receiver has got no declaration is passed over, since that has been reported. Uses in repeated
methods are not read: of these methods nothing but the repetition is reported.
-/
import FoolLang.Proofs.Scoping.Bare
import FoolLang.Proofs.Scoping.Lexical
import FoolLang.Proofs.Static.Resolved

namespace FoolLang

open Scope View FoolLang.Expr

variable {s s' s'' : Scope} {v w : View}

/-! ## Sites -/

mutual

/-- The parts of an expression that stand for a declaration, in the order in which resolution comes to them. -/
def Expr.sites : Expr → List Expr
  | .int _ _ | .bool _ _ | .null _ => []
  | .binary _ a b _ => a.sites ++ b.sites
  | .not e _ | .print e _ => e.sites
  | .cond c a b _ => c.sites ++ a.sites ++ b.sites
  | .id name r l => [.id name r l]
  | .call name args r l => .call name args r l :: Expr.sitesAll args
  | .new c args r l => .new c args r l :: Expr.sitesAll args
  | .methodCall receiver method args b l =>
    receiver.sites ++ .methodCall receiver method args b l :: Expr.sitesAll args

/-- The parts of some expressions that stand for a declaration. -/
def Expr.sitesAll : List Expr → List Expr
  | [] => []
  | e :: es => e.sites ++ Expr.sitesAll es

end

mutual

/-- The parts of a declaration that stand for a declaration. -/
def Decl.sites : Decl → List Expr
  | .var _ _ value _ => value.sites
  | .function _ locals body => Decl.sitesAll locals ++ body.sites

/-- The parts of some declarations that stand for a declaration. -/
def Decl.sitesAll : List Decl → List Expr
  | [] => []
  | d :: ds => d.sites ++ Decl.sitesAll ds

end

/-- The parts of a method that stand for a declaration. -/
def Method.sites (m : Method) : List Expr := Decl.sitesAll m.locals ++ m.body.sites

/-- The parts of a program that stand for a declaration, with those in some of the methods of each class. -/
def Program.sites (methods : ClassDecl → List Method) : Program → List Expr
  | .letIn classes decls body =>
    classes.flatMap (fun c => (methods c).flatMap Method.sites) ++ Decl.sitesAll decls ++ body.sites
  | .expr body => body.sites

/-- Whether a part that stands for a declaration is decorated. -/
def Expr.decorated? : Expr → Option Bool
  | .id _ r _ | .call _ _ r _ | .new _ _ r _ => some r.isSome
  | .methodCall _ _ _ b _ => some b.isSome
  | _ => none

/-- Whether a problem is one of a part that stands for a declaration. -/
def Cause.isOfUse : Cause → Bool
  | .notDeclared .. | .classNotDeclared .. | .notAClassVariable .. | .methodNotDeclared .. => true
  | _ => false

theorem passesOver_isOfUse : PassesOver Cause.isOfUse := ⟨fun _ _ => rfl, fun _ _ => rfl⟩

namespace Expr

/-- What can be wrong with an undecorated part that stands for a declaration. -/
inductive Missing : Expr → Cause → Prop
  | id {name l} : Missing (.id name none l) (.notDeclared "Var or Par" name)
  | call {name args l} : Missing (.call name args none l) (.notDeclared "Fun" name)
  | new {c args l} : Missing (.new c args none l) (.classNotDeclared c)
  | receiver {receiver method args l} :
    Missing (.methodCall receiver method args none l) (.notAClassVariable receiver.describe)
  | receiverClass {receiver method args l c} : receiver.class? = some c →
    Missing (.methodCall receiver method args none l) (.classNotDeclared c)
  | method {receiver method args l c} : receiver.class? = some c →
    Missing (.methodCall receiver method args none l) (.methodNotDeclared c method)

/--
Some parts that stand for a declaration, and the problems reported of them, in their order. Each part is decorated, or
it is a method call on an undecorated receiver, or one of the problems is its own.
-/
inductive Reports : List Expr → List Diagnostic → Prop
  | nil : Reports [] []
  | decorated {e es ds} : e.decorated? = some true → Reports es ds → Reports (e :: es) ds
  | passed {receiver method args l es ds} : receiver.decorated? = some false → Reports es ds →
    Reports (.methodCall receiver method args none l :: es) ds
  | missing {e cause es ds} : e.Missing cause → Reports es ds → Reports (e :: es) (⟨cause, e.line⟩ :: ds)

variable {es es' : List Expr} {ds ds' : List Diagnostic}

theorem Reports.append (h : Reports es ds) (h' : Reports es' ds') : Reports (es ++ es') (ds ++ ds') := by
  induction h with
  | nil => exact h'
  | decorated hd _ ih => exact .decorated hd ih
  | passed hr _ ih => exact .passed hr ih
  | missing hm _ ih => exact .missing hm ih

theorem Missing.isOfUse {e : Expr} {cause : Cause} (h : e.Missing cause) : cause.isOfUse = true := by
  cases h <;> rfl

/-- What is reported of parts that stand for a declaration passes the test for that. -/
theorem Reports.filter (h : Reports es ds) : ds.filter (·.cause.isOfUse) = ds := by
  induction h with
  | nil => rfl
  | decorated _ _ ih => exact ih
  | passed _ _ ih => exact ih
  | missing hm _ ih => rw [List.filter_cons, if_pos hm.isOfUse, ih]

end Expr

/-! ## Scopes with their classes -/

namespace Scope

/-- A scope agrees with a view, and every class that it has a table of is bound in the outermost scope. -/
structure Bound (s : Scope) (v : View) : Prop where
  agrees : s.Agrees v
  classes : ∀ c, s.classes.contains c = true → (v.outermost.lookup c).isSome = true

theorem outermost_bound : outermost.Bound (.behindClasses []) := ⟨outermost_agrees, fun _ h => by cases h⟩

variable {name kind : String} {type : Ty} {line : Nat}

theorem Bound.declareNext (h : s.Bound v) : (s.declareNext kind name type line).Bound (v.declare name type) := by
  refine ⟨h.agrees.declareNext, fun c hc => ?_⟩
  rw [declareNext_classes] at hc
  have hbound := h.classes c hc
  -- The new name is in the outermost scope only if no scope is around.
  cases ha : v.around with
  | cons ns nss =>
    rw [View.outermost, ha] at hbound
    rw [View.outermost, View.declare, ha]
    exact hbound
  | nil =>
    rw [View.outermost, ha] at hbound
    rw [View.outermost, View.declare, ha]
    show (List.lookup c (_ :: v.own)).isSome = true
    rw [List.lookup_cons]
    split
    · rfl
    · exact hbound

theorem Bound.inside (h : s.Bound v) (params : List Formal) :
    (s.enter.declareParams params 1).Bound (v.inside params) := by
  refine ⟨h.agrees.inside params, fun c hc => ?_⟩
  rw [declareParams_classes] at hc
  rw [View.outermost_of_around (w := v.inside params) rfl]
  exact h.classes c hc

theorem Bound.leave (h : s.Bound w) (hw : w.around = v.scopes) {taken : Nat} :
    (s.leave (View.offset taken)).Bound { v with taken } := by
  refine ⟨h.agrees.leave hw, fun c hc => ?_⟩
  rw [← View.outermost_of_around (v := { v with taken }) hw]
  exact h.classes c hc

theorem Bound.withProblems (h : s.Bound v) (ps : List Diagnostic) : ({ s with problems := ps } : Scope).Bound v :=
  ⟨h.agrees.withProblems ps, h.classes⟩

/-! ## What is reported on the way -/

/-- Resolution has gone on from one scope to another, and it has reported what is wrong with some parts. -/
structure Settles (s : Scope) (es : List Expr) (s' : Scope) (w : View) : Prop where
  bound : s'.Bound w
  reports : ∃ ds, Expr.Reports es ds ∧ s'.matching Cause.isOfUse = s.matching Cause.isOfUse ++ ds

theorem Settles.nil (h : s.Bound v) : Settles s [] s v := ⟨h, [], .nil, (List.append_nil _).symm⟩

theorem Settles.append {es es' : List Expr} (h : Settles s es s' v) (h' : Settles s' es' s'' w) :
    Settles s (es ++ es') s'' w := by
  obtain ⟨-, ds, hds, hproblems⟩ := h
  obtain ⟨hbound, ds', hds', hproblems'⟩ := h'
  exact ⟨hbound, ds ++ ds', hds.append hds', by rw [hproblems', hproblems, List.append_assoc]⟩

/-- Nothing that is done before matters but what is reported of uses. -/
theorem Settles.of_matching {es : List Expr} (h : Settles s' es s'' w)
    (hm : s'.matching Cause.isOfUse = s.matching Cause.isOfUse) : Settles s es s'' w := by
  obtain ⟨hbound, ds, hds, hproblems⟩ := h
  exact ⟨hbound, ds, hds, by rw [hproblems, hm]⟩

end Scope

/-! ## Expressions -/

/-- A receiver about which nothing is said is undecorated. -/
theorem Expr.undecorated_of_receiverClass? : ∀ e : Expr, e.bare = e → (e.decorate s).receiverClass? s = .ok none →
    (e.decorate s).decorated? = some false
  | .int _ _, _, h | .bool _ _, _, h | .null _, _, h | .binary _ _ _ _, _, h | .not _ _, _, h
  | .cond _ _ _ _, _, h | .print _ _, _, h => by simp [Expr.decorate, Expr.receiverClass?] at h
  | .id name r l, _, h => by
    rw [Expr.decorate] at h ⊢
    cases hr : s.resolution? name <|> r with
    | none => rfl
    | some b =>
      rw [hr, Expr.receiverClass?] at h
      split at h <;> cases h
  | .call name args r l, _, h => by
    rw [Expr.decorate] at h ⊢
    cases hr : s.resolution? name <|> r with
    | none => rfl
    | some b =>
      rw [hr, Expr.receiverClass?] at h
      split at h <;> cases h
  | .new c args r l, hb, h => by
    simp only [Expr.bare, Expr.new.injEq] at hb
    have hr : r = none := hb.2.2.1.symm
    rw [Expr.decorate] at h ⊢
    by_cases hc : s.classes.contains c = true
    · simp [Expr.receiverClass?, hc] at h
    · simp [Expr.decorated?, hc, hr]
  | .methodCall receiver method args b l, _, h => by
    rw [Expr.decorate] at h ⊢
    cases hr : s.callEntry? (receiver.decorate s) method <|> b with
    | none => rfl
    | some e =>
      simp only [hr, Expr.receiverClass?] at h
      split at h <;> cases h

theorem Expr.receiverClass?_error : ∀ {e : Expr} {cause : Cause}, e.receiverClass? s = .error cause →
    cause = .notAClassVariable e.describe
  | .int _ _, _, h | .bool _ _, _, h | .null _, _, h | .binary _ _ _ _, _, h | .not _ _, _, h
  | .cond _ _ _ _, _, h | .print _ _, _, h => by
    cases h
    rfl
  | .new _ _ _ _, _, h | .id _ none _, _, h | .call _ _ none _, _, h | .methodCall _ _ _ none _, _, h => by cases h
  | .id _ (some _) _, _, h | .call _ _ (some _) _, _, h | .methodCall _ _ _ (some _) _, _, h => by
    rw [Expr.receiverClass?] at h
    split at h
    · cases h
    · cases h
      rfl

/-- A method call is decorated, passed over or reported, and what follows it is reported behind it. -/
theorem Scope.reports_call {receiver : Expr} {method : String} {args : List Expr} {l : Nat} {es : List Expr}
    {ds : List Diagnostic} (hnone : receiver.receiverClass? s = .ok none → receiver.decorated? = some false)
    (hes : Reports es ds) :
    Reports (.methodCall receiver method args (s.callEntry? receiver method <|> none) l :: es)
      ((match s.callProblem? receiver method with
        | some cause => [⟨cause, l⟩]
        | none => []) ++ ds) := by
  unfold callEntry? callProblem?
  cases hr : receiver.receiverClass? s with
  | error cause =>
    cases Expr.receiverClass?_error hr
    exact .missing .receiver hes
  | ok c? =>
    cases c? with
    | none => exact .passed (hnone hr) hes
    | some c =>
      have hclass := Expr.class?_of_receiverClass? hr
      dsimp only
      by_cases hc : s.classes.contains c = true
      · rw [if_pos hc]
        cases s.methodEntry? c method with
        | some b => exact .decorated rfl hes
        | none => exact .missing (.method hclass) hes
      · have hentry : s.methodEntry? c method = none := by
          have hget : s.classes.get? c = none := by simpa [Table.contains] using hc
          rw [Scope.methodEntry?, hget]
          rfl
        rw [if_neg hc, hentry]
        exact .missing (.receiverClass hclass) hes

mutual

theorem Expr.decorate_reports (h : s.Bound v) :
    ∀ e : Expr, e.bare = e → Reports (e.decorate s).sites (e.problems s)
  | .int _ _, _ | .bool _ _, _ | .null _, _ => .nil
  | .binary _ a b _, hb => by
    simp only [Expr.bare, Expr.binary.injEq, true_and, and_true] at hb
    exact (decorate_reports h a hb.1).append (decorate_reports h b hb.2)
  | .not e _, hb => by
    simp only [Expr.bare, Expr.not.injEq, and_true] at hb
    exact decorate_reports h e hb
  | .print e _, hb => by
    simp only [Expr.bare, Expr.print.injEq, and_true] at hb
    exact decorate_reports h e hb
  | .cond c a b _, hb => by
    simp only [Expr.bare, Expr.cond.injEq, and_true] at hb
    exact ((decorate_reports h c hb.1).append (decorate_reports h a hb.2.1)).append (decorate_reports h b hb.2.2)
  | .id name r l, hb => by
    simp only [Expr.bare, Expr.id.injEq, true_and, and_true] at hb
    subst hb
    rw [Expr.decorate, Expr.problems, Scope.resolution?]
    cases s.lookup name with
    | some b => exact .decorated rfl .nil
    | none => exact .missing .id .nil
  | .call name args r l, hb => by
    simp only [Expr.bare, Expr.call.injEq, true_and, and_true] at hb
    obtain ⟨hargs, rfl⟩ := hb
    have hargs := decorateAll_reports h args hargs
    rw [Expr.decorate, Expr.problems, Scope.resolution?]
    cases s.lookup name with
    | some b => exact .decorated rfl hargs
    | none => exact .missing .call hargs
  | .new c args r l, hb => by
    simp only [Expr.bare, Expr.new.injEq, true_and, and_true] at hb
    obtain ⟨hargs, rfl⟩ := hb
    have hargs := decorateAll_reports h args hargs
    rw [Expr.decorate, Expr.problems]
    -- The report depends on the table of the class, the decoration on the name in the outermost scope.
    by_cases hc : s.classes.contains c = true
    · obtain ⟨b, hb⟩ := Option.isSome_iff_exists.mp (h.classes c hc)
      rw [if_pos hc, if_pos hc, h.agrees.lookupOutermost, hb]
      exact .decorated rfl hargs
    · rw [if_neg hc, if_neg hc]
      exact .missing .new hargs
  | .methodCall receiver method args b l, hb => by
    simp only [Expr.bare, Expr.methodCall.injEq, true_and, and_true] at hb
    obtain ⟨hreceiver, hargs, rfl⟩ := hb
    have hargs := decorateAll_reports h args hargs
    have hr := decorate_reports h receiver hreceiver
    rw [Expr.decorate, Expr.problems, Expr.sites, List.append_assoc]
    exact hr.append (reports_call (receiver.undecorated_of_receiverClass? hreceiver) hargs)

theorem Expr.decorateAll_reports (h : s.Bound v) :
    ∀ es : List Expr, Expr.bareAll es = es → Reports (Expr.sitesAll (Expr.decorateAll s es)) (Expr.problemsAll s es)
  | [], _ => .nil
  | e :: es, hb => by
    simp only [Expr.bareAll, List.cons.injEq] at hb
    exact (decorate_reports h e hb.1).append (decorateAll_reports h es hb.2)

end

theorem Expr.resolve_settles (e : Expr) (hb : e.bare = e) (h : s.Bound v) :
    Settles s (e.resolve.run s).1.sites (e.resolve.run s).2 v := by
  have hreports := e.decorate_reports h hb
  refine ⟨h.withProblems _, _, hreports, ?_⟩
  show (s.problems ++ e.problems s).filter _ = _
  rw [List.filter_append, hreports.filter]
  rfl

/-! ## Declarations and routines -/

/-- The inside of a routine is read in a scope of its own, which is closed behind it. -/
theorem Scope.Settles.routine {es : List Expr} {params : List Formal} (h : s.Bound v)
    (hr : Settles (s.enter.declareParams params 1) es s' w) (hw : w.around = v.scopes) :
    Settles s es (s'.leave s.nextOffset) v := by
  obtain ⟨hbound, hreports⟩ := hr.of_matching (declareParams_matching passesOver_isOfUse params s.enter 1)
  rw [h.agrees.offset]
  exact ⟨hbound.leave hw, hreports⟩

mutual

theorem Decl.resolve_settles : ∀ (d : Decl) {s : Scope} {v : View}, d.bare = d → s.Bound v →
    Settles s (d.resolve.run s).1.sites (d.resolve.run s).2 (v.behind d)
  | .var name type value line, s, v, hb, h => by
    simp only [Decl.bare, Decl.var.injEq, true_and, and_true] at hb
    obtain ⟨hbound, ds, hds, hproblems⟩ := value.resolve_settles hb h
    exact ⟨hbound.declareNext, ds, hds, (declareNext_matching passesOver_isOfUse).trans hproblems⟩
  | .function header locals body, s, v, hb, h => by
    simp only [Decl.bare, Decl.function.injEq, true_and] at hb
    have hself : (s.declareNext "Fun" header.name (.arrow header.signature) header.line).Bound
        (v.declare header.name (.arrow header.signature)) := h.declareNext
    have hlocals := Decl.resolveAll_settles locals hb.1 (hself.inside header.params)
    have hbody := body.resolve_settles hb.2 hlocals.bound
    exact ((hlocals.append hbody).routine hself (View.behindAll_around _ _)).of_matching
      (declareNext_matching passesOver_isOfUse)

theorem Decl.resolveAll_settles : ∀ (ds : List Decl) {s : Scope} {v : View}, Decl.bareAll ds = ds → s.Bound v →
    Settles s (Decl.sitesAll ((Decl.resolveAll ds).run s).1) ((Decl.resolveAll ds).run s).2 (v.behindAll ds)
  | [], _, _, _, h => .nil h
  | d :: ds, _, _, hb, h => by
    simp only [Decl.bareAll, List.cons.injEq] at hb
    have hd := Decl.resolve_settles d hb.1 h
    exact hd.append (Decl.resolveAll_settles ds hb.2 hd.bound)

end

/-- The inside of a method is bare. -/
def Method.Plain (m : Method) : Prop := Decl.bareAll m.locals = m.locals ∧ m.body.bare = m.body

theorem Method.resolve_settles {m : Method} (hb : m.Plain) (h : s.Bound v) :
    Settles s (m.resolve.run s).1.sites (m.resolve.run s).2 v := by
  have hlocals := Decl.resolveAll_settles m.locals hb.1 (h.inside m.header.params)
  have hbody := m.body.resolve_settles hb.2 hlocals.bound
  exact (hlocals.append hbody).routine h (View.behindAll_around _ _)

theorem Method.resolveAll_settles (ms : List Method) : ∀ {s : Scope}, (∀ m ∈ ms, m.Plain) →
    (∀ m ∈ ms, m.slot.isSome) → s.Bound v →
    Settles s (((Method.resolveAll ms).run s).1.flatMap Method.sites) ((Method.resolveAll ms).run s).2 v := by
  induction ms with
  | nil => exact fun _ _ h => .nil h
  | cons m ms ih =>
    intro s hb hslots h
    obtain ⟨hm, hms⟩ := List.forall_mem_cons.mp hslots
    obtain ⟨slot, hslot⟩ := Option.isSome_iff_exists.mp hm
    obtain ⟨hb, hbs⟩ := List.forall_mem_cons.mp hb
    have hfirst := Method.resolve_settles hb h
    rw [Method.resolveAll_cons_some hslot, List.flatMap_cons]
    exact hfirst.append (ih hbs hms hfirst.bound)

/-! ## Classes -/

/-- Inside a class, its name is bound besides those of the classes before it. -/
theorem Scope.Bound.enterClass {c : ClassDecl} {earlier : List ClassDecl} {table : Frame}
    (h : s.Bound (.behindClasses earlier)) (h' : s'.Agrees (c.view earlier))
    (hc : s'.classes = s.classes.put c.name table) : s'.Bound (c.view earlier) := by
  refine ⟨h', fun n hn => ?_⟩
  have houter : (c.view earlier).outermost = ClassDecl.names (earlier ++ [c]) := rfl
  rw [houter, ClassDecl.names_append, List.lookup_cons]
  -- The table of the class itself has been put in place already.
  by_cases hname : n = c.name
  · simp [hname]
  · have hb : (n == c.name) = false := by simpa using hname
    rw [Table.contains, hc, Table.get?_put_ne _ _ hname] at hn
    rw [hb]
    exact h.classes n hn

namespace ClassDecl

variable {c : ClassDecl} {earlier : List ClassDecl}

theorem methods_of_bare (hb : c.bare = c) : ∀ m ∈ c.methods, m.bare = m := by
  have hmethods : c.methods.map Method.bare = c.methods := congrArg ClassDecl.methods hb
  exact List.map_inj_left.mp (hmethods.trans (List.map_id _).symm)

theorem slots_of_bare (hb : c.bare = c) : ∀ m ∈ c.methods, m.slot = none := by
  intro m hm
  rw [← methods_of_bare hb m hm]
  rfl

theorem withSlots_plain (hb : c.bare = c) : ∀ m ∈ withSlots [] c.methods 0, m.Plain := by
  intro m hm
  have hinside := List.mem_map_of_mem (f := fun m => (m.locals, m.body)) hm
  rw [withSlots_map (fun _ _ => rfl) c.methods [] 0 (slots_of_bare hb)] at hinside
  obtain ⟨n, hn, he⟩ := List.mem_map.mp hinside
  obtain ⟨hlocals, hbody⟩ := Prod.mk.inj he
  have hbare := methods_of_bare hb n ((firsts_sublist _ _ _).subset hn)
  rw [Method.Plain, ← hlocals, ← hbody]
  exact ⟨congrArg Method.locals hbare, congrArg Method.body hbare⟩

/-- Of a class, the methods that are not repetitions are read. -/
theorem resolve_settles (hb : c.bare = c) (h : s.Bound (.behindClasses earlier)) :
    Settles s ((c.resolve.run s).1.ownMethods.flatMap Method.sites) (c.resolve.run s).2
      (.behindClasses (earlier ++ [c])) := by
  obtain ⟨s₁, table, h₁, -, hc₁, hm₁, hrun⟩ := c.resolve_enters h.agrees
  have hsettles := Method.resolveAll_settles (withSlots [] c.methods 0) (withSlots_plain hb)
    (fun m hm => (List.mem_filter.mp hm).2) (h.enterClass h₁ hc₁)
  obtain ⟨hown, hend⟩ := resolveAll_slotted c.methods [] [] 0 s₁ (slots_of_bare hb) rfl
  rw [← hown, ← hend] at hsettles
  -- What is reported before the methods are read is of names that are declared twice.
  have hsilent : s₁.matching Cause.isOfUse = s.matching Cause.isOfUse := by
    rw [hm₁ _ passesOver_isOfUse]
    refine (congrArg _ (List.filter_eq_nil_iff.mpr fun d hd => ?_)).trans (List.append_nil _)
    obtain ⟨m, -, rfl⟩ := List.mem_map.mp hd
    exact Bool.false_ne_true
  obtain ⟨hbound, hreports⟩ := hsettles.of_matching hsilent
  have hleave : Scope.Bound _ { View.behindClasses (earlier ++ [c]) with taken := earlier.length + 1 } :=
    hbound.leave rfl
  rw [hrun]
  refine ⟨?_, hreports⟩
  simpa [View.behindClasses] using hleave

theorem resolveAll_settles (cs : List ClassDecl) : ∀ {s : Scope} {earlier : List ClassDecl}, (∀ c ∈ cs, c.bare = c) →
    s.Bound (.behindClasses earlier) →
    Settles s (((resolveAll cs).run s).1.flatMap fun c => c.ownMethods.flatMap Method.sites) ((resolveAll cs).run s).2
      (.behindClasses (earlier ++ cs)) := by
  induction cs with
  | nil =>
    intro s earlier _ h
    rw [List.append_nil]
    exact .nil h
  | cons c cs ih =>
    intro s earlier hb h
    obtain ⟨hb, hbs⟩ := List.forall_mem_cons.mp hb
    have hc := resolve_settles hb h
    have hcs := ih hbs hc.bound
    rw [List.append_assoc] at hcs
    exact hc.append hcs

end ClassDecl

/-! ## Programs -/

theorem Program.resolve_settles (p : Program) (hp : p.bare = p) :
    ∃ w, Settles outermost (p.resolve.1.sites ClassDecl.ownMethods) p.resolve.2 w := by
  cases p with
  | letIn classes decls body =>
    simp only [bare, letIn.injEq] at hp
    have hclasses := ClassDecl.resolveAll_settles classes
      (List.map_inj_left.mp (hp.1.trans (List.map_id _).symm)) outermost_bound
    have hdecls := Decl.resolveAll_settles decls hp.2.1 hclasses.bound
    exact ⟨_, (hclasses.append hdecls).append (body.resolve_settles hp.2.2 hdecls.bound)⟩
  | expr body =>
    simp only [bare, expr.injEq] at hp
    exact ⟨_, body.resolve_settles hp outermost_bound⟩

/-- A bare program is as it has been read. -/
theorem Program.undecorated_of_bare {p : Program} (hp : p.bare = p) : p.Undecorated := by
  cases p with
  | letIn classes decls body =>
    simp only [bare, letIn.injEq] at hp
    have hclasses : ∀ c ∈ classes, c.bare = c := List.map_inj_left.mp (hp.1.trans (List.map_id _).symm)
    refine ⟨List.forall_mem_append.mpr ⟨List.forall_mem_append.mpr ⟨?_, ?_⟩, ?_⟩, fun c hc =>
      ClassDecl.slots_of_bare (hclasses c hc)⟩
    · intro u hu
      obtain ⟨c, hc, hu⟩ := List.mem_flatMap.mp hu
      obtain ⟨m, hm, hu⟩ := List.mem_flatMap.mp hu
      have hbare := ClassDecl.methods_of_bare (hclasses c hc) m ((firsts_sublist _ _ _).subset hm)
      rw [← hbare] at hu
      have hall := List.forall_mem_append.mpr ⟨Decl.usesAll_bareAll m.locals, m.body.uses_bare⟩
      exact hall u hu
    · rw [← hp.2.1]
      exact Decl.usesAll_bareAll decls
    · rw [← hp.2.2]
      exact body.uses_bare
  | expr body =>
    simp only [bare, expr.injEq] at hp
    show ∀ u ∈ body.uses, u.resolution = none
    rw [← hp]
    exact body.uses_bare

/--
One pass reports everything that is wrong with the uses in a program. Resolution changes nothing of a bare program but
its decorations; outside repeated methods, every use is decorated or reported on its own, in the order of the uses, but
for method calls on undecorated receivers; and every repeated method is reported as such.
-/
theorem Program.resolve_reports (p : Program) (hp : p.bare = p) :
    p.resolve.1.bare = p ∧
    Expr.Reports (p.resolve.1.sites ClassDecl.ownMethods) (p.resolve.2.problems.filter (·.cause.isOfUse)) ∧
    p.resolve.2.problems.filter (·.cause.isDuplicateMethod) = p.repetitions := by
  have htwice : OfNames Cause.isDuplicateMethod := fun c h => (Bool.or_eq_false_iff.mp h).2
  obtain ⟨w, -, ds, hreports, hproblems⟩ := p.resolve_settles hp
  refine ⟨p.resolve_bare.trans hp, ?_, ?_⟩
  · rw [outermost_matching, List.nil_append] at hproblems
    rw [← hproblems] at hreports
    exact hreports
  · exact (p.resolve_reads htwice (undecorated_of_bare hp)).2.trans p.nameProblems_isDuplicateMethod

/-- `let var x:int = y; in w.m(x, z);` -/
def lost : Program :=
  .letIn [] [.var "x" .int (.id "y" none 1) 1]
    (.methodCall (.id "w" none 2) "m" [.id "x" none 2, .id "z" none 2] none 2)

theorem resolve_reports_lost : lost.bare = lost ∧ Expr.Reports (lost.resolve.1.sites ClassDecl.ownMethods)
    [⟨.notDeclared "Var or Par" "y", 1⟩, ⟨.notDeclared "Var or Par" "w", 2⟩, ⟨.notDeclared "Var or Par" "z", 2⟩] := by
  have hbare : lost.bare = lost := rfl
  have hproblems : lost.resolve.2.problems.filter (·.cause.isOfUse) = [⟨.notDeclared "Var or Par" "y", 1⟩,
      ⟨.notDeclared "Var or Par" "w", 2⟩, ⟨.notDeclared "Var or Par" "z", 2⟩] := by decide
  exact ⟨hbare, hproblems ▸ (lost.resolve_reports hbare).2.1⟩

/-- A class with a method and, on the lines behind it, a repetition of the method whose body is not declared. -/
def repetitive : Program :=
  .letIn [⟨"A", [], [⟨⟨"m", .int, [], 2⟩, [], .int 1 2, none⟩,
    ⟨⟨"m", .int, [], 3⟩, [], .id "missing" none 4, none⟩], 1⟩]
    [] (.int 1 5)

/-- A use in a repeated method is neither decorated nor reported. -/
theorem repetitive_unreported : repetitive.bare = repetitive ∧
    .id "missing" none 4 ∈ repetitive.resolve.1.sites ClassDecl.methods ∧
    ¬ ((Expr.id "missing" none 4).decorated? = some true ∨ (∃ d ∈ repetitive.resolve.2.problems, d.line = 4) ∨
      ∃ receiver method args, Expr.id "missing" none 4 = .methodCall receiver method args none 4 ∧
        receiver.decorated? = some false) := by
  have hproblems : repetitive.resolve.2.problems = [⟨.duplicateMethod "A" "m", 3⟩] := by decide +kernel
  have hsite : (repetitive.resolve.1.sites ClassDecl.methods).any (fun
      | .id name none l => name == "missing" && l == 4
      | _ => false) = true := by decide +kernel
  refine ⟨rfl, ?_, ?_⟩
  · obtain ⟨e, he, htest⟩ := List.any_eq_true.mp hsite
    split at htest
    · obtain ⟨rfl, rfl⟩ : _ = "missing" ∧ _ = 4 := by simpa using htest
      exact he
    · cases htest
  · rintro (hd | ⟨d, hd, hline⟩ | ⟨_, _, _, he, -⟩)
    · exact absurd hd (by decide)
    · rw [hproblems, List.mem_singleton] at hd
      subst hd
      exact absurd hline (by decide)
    · cases he

end FoolLang
