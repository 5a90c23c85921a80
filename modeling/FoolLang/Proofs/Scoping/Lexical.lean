/-
Resolution is lexical scoping: it gives every use of a name the meaning that the text of the program
says it has where it stands, and reports the uses without a meaning in their order. One lemma for
each step of resolution says which occurrences it reads; a whole resolution reads those of the program.
-/
import FoolLang.Proofs.Scoping.Members
import FoolLang.Proofs.Scoping.Occurrences

namespace FoolLang

open Scope View

variable {q : Cause → Bool} {s s' s'' : Scope} {v w : View}

/-- The decoration that resolution leaves on a use: what it means, or else what it had. -/
def Occurrence.settled (p : Occurrence) : Use :=
  { p.use with resolution := p.view.resolution? p.use.name <|> p.use.resolution }

namespace Scope

/--
Resolution has gone on from one scope to another, which agrees with a view; the uses that it gives
back are those of some occurrences, and the problems are told of these.
-/
structure Reads (q : Cause → Bool) (s : Scope) (ps : List Occurrence) (us : List Use) (s' : Scope)
    (w : View) : Prop where
  agrees : s'.Agrees w
  uses : us = ps.map Occurrence.settled
  problems : s'.matching q = s.matching q ++ (ps.filterMap Occurrence.problem?).filter (q ·.cause)

theorem Reads.nil (h : s.Agrees v) : Reads q s [] [] s v := ⟨h, rfl, by simp⟩

theorem Reads.append {ps ps' : List Occurrence} {us us' : List Use} (h : Reads q s ps us s' v)
    (h' : Reads q s' ps' us' s'' w) : Reads q s (ps ++ ps') (us ++ us') s'' w :=
  ⟨h'.agrees, by rw [h.uses, h'.uses, List.map_append], by
    rw [h'.problems, h.problems, List.filterMap_append, List.filter_append, List.append_assoc]⟩

/-- Nothing that is done before matters but what is reported. -/
theorem Reads.of_matching {ps : List Occurrence} {us : List Use} (h : Reads q s' ps us s'' w)
    (hm : s'.matching q = s.matching q) : Reads q s ps us s'' w :=
  ⟨h.agrees, h.uses, by rw [h.problems, hm]⟩

end Scope

/-! ## Expressions -/

mutual

theorem Expr.uses_decorate (h : s.Agrees v) :
    ∀ e : Expr, (e.decorate s).uses = (e.occurrences v).map Occurrence.settled
  | .int _ _ | .bool _ _ | .null _ => rfl
  | .binary _ a b _ => by
    rw [Expr.decorate, Expr.uses, uses_decorate h a, uses_decorate h b]
    simp [Expr.occurrences, Expr.uses]
  | .not e _ | .print e _ => by rw [Expr.decorate, Expr.uses, uses_decorate h e]; rfl
  | .cond c a b _ => by
    rw [Expr.decorate, Expr.uses, uses_decorate h c, uses_decorate h a, uses_decorate h b]
    simp [Expr.occurrences, Expr.uses]
  | .id name r l => by rw [Expr.decorate, h.resolution?]; rfl
  | .call name args r l => by
    rw [Expr.decorate, Expr.uses, usesAll_decorateAll h args, h.resolution?]; rfl
  | .new c args r l => by rw [Expr.decorate, Expr.uses, usesAll_decorateAll h args]; rfl
  | .methodCall receiver _ args _ _ => by
    rw [Expr.decorate, Expr.uses, uses_decorate h receiver, usesAll_decorateAll h args]
    simp [Expr.occurrences, Expr.uses]

theorem Expr.usesAll_decorateAll (h : s.Agrees v) : ∀ es : List Expr,
    Expr.usesAll (Expr.decorateAll s es) = ((Expr.usesAll es).map (Occurrence.mk v)).map Occurrence.settled
  | [] => rfl
  | e :: es => by
    rw [Expr.decorateAll, Expr.usesAll, uses_decorate h e, usesAll_decorateAll h es]
    simp [Expr.occurrences, Expr.usesAll]

end

/-- What is wrong with a method call is not about names. -/
theorem Scope.callProblem?_ofNames (hq : OfNames q) {receiver : Expr} {method : String} {c : Cause}
    (h : s.callProblem? receiver method = some c) : q c = false := by
  apply hq
  unfold callProblem? at h
  split at h
  · rename_i cause hr
    cases h
    unfold Expr.receiverClass? at hr
    split at hr <;> first | cases hr; rfl | (split at hr <;> cases hr; rfl) | cases hr
  · cases h
  · split at h
    · split at h <;> cases h; rfl
    · cases h; rfl

mutual

theorem Expr.problems_filter (hq : OfNames q) (h : s.Agrees v) : ∀ e : Expr,
    (e.problems s).filter (q ·.cause) = ((e.occurrences v).filterMap Occurrence.problem?).filter (q ·.cause)
  | .int _ _ | .bool _ _ | .null _ => rfl
  | .binary _ a b _ => by
    rw [Expr.problems, List.filter_append, problems_filter hq h a, problems_filter hq h b]
    simp [Expr.occurrences, Expr.uses]
  | .not e _ | .print e _ => by rw [Expr.problems, problems_filter hq h e]; rfl
  | .cond c a b _ => by
    rw [Expr.problems, List.filter_append, List.filter_append, problems_filter hq h c,
      problems_filter hq h a, problems_filter hq h b]
    simp [Expr.occurrences, Expr.uses]
  | .id name r l => by
    rw [Expr.problems, h.lookup]
    cases hf : v.find? name <;> simp [Expr.occurrences, Expr.uses, Occurrence.problem?, hf, Use.Manner.describe]
  | .call name args r l => by
    rw [Expr.problems, List.filter_append, problemsAll_filter hq h args, h.lookup]
    cases hf : v.find? name with
    | some b => simp [Expr.occurrences, Expr.uses, Occurrence.problem?, hf]
    | none =>
      by_cases hn : q (.notDeclared "Fun" name) = true <;>
        simp [Expr.occurrences, Expr.uses, Occurrence.problem?, hf, Use.Manner.describe, hn]
  | .new c args _ l => by
    have hc : q (.classNotDeclared c) = false := hq _ rfl
    rw [Expr.problems, List.filter_append, problemsAll_filter hq h args]
    split <;> simp [hc, Expr.occurrences, Expr.uses]
  | .methodCall receiver method args _ l => by
    rw [Expr.problems, List.filter_append, List.filter_append, problems_filter hq h receiver,
      problemsAll_filter hq h args]
    cases hc : s.callProblem? (receiver.decorate s) method with
    | none => simp [Expr.occurrences, Expr.uses]
    | some cause => simp [Expr.occurrences, Expr.uses, callProblem?_ofNames hq hc]

theorem Expr.problemsAll_filter (hq : OfNames q) (h : s.Agrees v) : ∀ es : List Expr,
    (Expr.problemsAll s es).filter (q ·.cause) =
      (((Expr.usesAll es).map (Occurrence.mk v)).filterMap Occurrence.problem?).filter (q ·.cause)
  | [] => rfl
  | e :: es => by
    rw [Expr.problemsAll, List.filter_append, problems_filter hq h e, problemsAll_filter hq h es]
    simp [Expr.occurrences, Expr.usesAll]

end

theorem Expr.resolve_reads (hq : OfNames q) (h : s.Agrees v) (e : Expr) :
    Reads q s (e.occurrences v) (e.resolve.run s).1.uses (e.resolve.run s).2 v := by
  refine ⟨h.withProblems _, Expr.uses_decorate h e, ?_⟩
  show (s.problems ++ e.problems s).filter _ = _
  rw [List.filter_append, Expr.problems_filter hq h e]
  rfl

/-! ## Declarations and routines -/

/-- The inside of a routine is read in a scope of its own, which is closed behind it. -/
theorem Scope.Reads.routine {ps : List Occurrence} {us : List Use} {params : List Formal} (hq : OfNames q)
    (h : s.Agrees v) (hr : Reads q (s.enter.declareParams params 1) ps us s' w)
    (hw : w.around = v.scopes) : Reads q s ps us (s'.leave s.nextOffset) v := by
  obtain ⟨agrees, uses, problems⟩ := hr.of_matching (declareParams_matching hq.passesOver params s.enter 1)
  rw [h.offset]
  exact ⟨agrees.leave hw, uses, problems⟩

mutual

theorem Decl.resolve_reads (hq : OfNames q) : ∀ (d : Decl) {s : Scope} {v : View}, s.Agrees v →
    Reads q s (d.occurrences v) (d.resolve.run s).1.uses (d.resolve.run s).2 (v.behind d)
  | .var name type value line, s, v, h => by
    obtain ⟨agrees, uses, problems⟩ := value.resolve_reads hq h
    exact ⟨agrees.declareNext, uses, (declareNext_matching hq.passesOver).trans problems⟩
  | .function header locals body, s, v, h => by
    have hself : (s.declareNext "Fun" header.name (.arrow header.signature) header.line).Agrees
        (v.declare header.name (.arrow header.signature)) := h.declareNext
    have hlocals := Decl.resolveAll_reads hq locals (hself.inside header.params)
    have hbody := body.resolve_reads hq hlocals.agrees
    exact ((hlocals.append hbody).routine hq hself (View.behindAll_around _ _)).of_matching
      (declareNext_matching hq.passesOver)

theorem Decl.resolveAll_reads (hq : OfNames q) : ∀ (ds : List Decl) {s : Scope} {v : View}, s.Agrees v →
    Reads q s (Decl.occurrencesAll v ds) (Decl.usesAll ((Decl.resolveAll ds).run s).1)
      ((Decl.resolveAll ds).run s).2 (v.behindAll ds)
  | [], _, _, h => .nil h
  | d :: ds, _, _, h => by
    have hd := Decl.resolve_reads hq d h
    exact hd.append (Decl.resolveAll_reads hq ds hd.agrees)

end

theorem Method.resolve_reads (hq : OfNames q) (h : s.Agrees v) (m : Method) :
    Reads q s (m.occurrences v) (m.resolve.run s).1.uses (m.resolve.run s).2 v := by
  have hlocals := Decl.resolveAll_reads hq m.locals (h.inside m.header.params)
  have hbody := m.body.resolve_reads hq hlocals.agrees
  exact (hlocals.append hbody).routine hq h (View.behindAll_around _ _)

/-! ## Classes -/

theorem Method.resolveAll_reads (hq : OfNames q) (ms : List Method) : ∀ {s : Scope}, s.Agrees v →
    (∀ m ∈ ms, m.slot.isSome) → Reads q s (ms.flatMap (Method.occurrences v))
      (((Method.resolveAll ms).run s).1.flatMap Method.uses) ((Method.resolveAll ms).run s).2 v := by
  induction ms with
  | nil => exact fun h _ => .nil h
  | cons m ms ih =>
    intro s h hslots
    obtain ⟨hm, hms⟩ := List.forall_mem_cons.mp hslots
    obtain ⟨slot, hslot⟩ := Option.isSome_iff_exists.mp hm
    have hfirst := Method.resolve_reads hq h m
    rw [Method.resolveAll_cons_some hslot, List.flatMap_cons, List.flatMap_cons]
    exact hfirst.append (ih hfirst.agrees hms)

namespace ClassDecl

/-- The problems of classes that stand behind others: first the repeated methods of a class, then its uses. -/
def problemsAll (earlier : List ClassDecl) : List ClassDecl → List Diagnostic
  | [] => []
  | c :: cs => c.repeatedMethods.map (Method.repetition c.name) ++
    (c.ownMethods.flatMap (Method.occurrences (c.view earlier))).filterMap Occurrence.problem? ++
    problemsAll (earlier ++ [c]) cs

theorem resolve_reads (hq : OfNames q) (c : ClassDecl) {earlier : List ClassDecl}
    (h : s.Agrees (.behindClasses earlier)) (hslots : ∀ m ∈ c.methods, m.slot = none) :
    (c.resolve.run s).2.Agrees (.behindClasses (earlier ++ [c])) ∧
    (c.resolve.run s).1.uses =
      (c.ownMethods.flatMap (Method.occurrences (c.view earlier))).map Occurrence.settled ∧
    (c.resolve.run s).2.matching q = s.matching q ++
      (c.repeatedMethods.map (Method.repetition c.name) ++
        (c.ownMethods.flatMap (Method.occurrences (c.view earlier))).filterMap Occurrence.problem?).filter
          (q ·.cause) := by
  obtain ⟨s₁, table, h₁, -, -, hm₁, hrun⟩ := c.resolve_enters h
  -- Only the methods that are not repetitions have slots.
  have hreads := Method.resolveAll_reads hq (withSlots [] c.methods 0) h₁ fun m hm => (List.mem_filter.mp hm).2
  obtain ⟨hown, hend⟩ := resolveAll_slotted c.methods [] [] 0 s₁ hslots rfl
  have hplaces := congrArg List.flatten
    (withSlots_map (f := Method.occurrences (c.view earlier)) (fun _ _ => rfl) c.methods [] 0 hslots)
  rw [← List.flatMap_def, ← List.flatMap_def] at hplaces
  rw [← hown, ← hend, hplaces] at hreads
  obtain ⟨agrees, uses, problems⟩ := hreads
  rw [hrun]
  refine ⟨?_, uses, ?_⟩
  · have hleave : Scope.Agrees _ { View.behindClasses (earlier ++ [c]) with taken := earlier.length + 1 } :=
      agrees.leave rfl
    simpa [View.behindClasses] using hleave
  · rw [List.filter_append, ← List.append_assoc, ← hm₁ q hq.passesOver]
    exact problems

theorem resolveAll_reads (hq : OfNames q) (cs : List ClassDecl) :
    ∀ {s : Scope} {earlier : List ClassDecl}, s.Agrees (.behindClasses earlier) →
      (∀ c ∈ cs, ∀ m ∈ c.methods, m.slot = none) →
      ((resolveAll cs).run s).2.Agrees (.behindClasses (earlier ++ cs)) ∧
      ((resolveAll cs).run s).1.flatMap uses = (occurrencesAll earlier cs).map Occurrence.settled ∧
      ((resolveAll cs).run s).2.matching q =
        s.matching q ++ (problemsAll earlier cs).filter (q ·.cause) := by
  induction cs with
  | nil => exact fun h _ => ⟨by rwa [List.append_nil], rfl, by rw [problemsAll, List.filter_nil, List.append_nil]; rfl⟩
  | cons c cs ih =>
    intro s earlier h hslots
    obtain ⟨h₁, huses, hproblems⟩ := c.resolve_reads hq h (hslots c List.mem_cons_self)
    obtain ⟨h₂, huses', hproblems'⟩ := ih h₁ fun d hd => hslots d (List.mem_cons_of_mem _ hd)
    rw [List.append_assoc, List.singleton_append] at h₂
    refine ⟨h₂, ?_, ?_⟩
    · rw [occurrencesAll, List.map_append, ← huses, ← huses']; rfl
    · rw [problemsAll, List.filter_append, ← List.append_assoc, ← hproblems, ← hproblems']; rfl

end ClassDecl

/-! ## Programs -/

/-- The problems of a program that are about names, in their order. -/
def Program.nameProblems : Program → List Diagnostic
  | .letIn classes decls body =>
    let v := View.behindClasses classes
    ClassDecl.problemsAll [] classes ++
      (Decl.occurrencesAll v decls ++ body.occurrences (v.behindAll decls)).filterMap Occurrence.problem?
  | .expr body => (body.occurrences (View.behindClasses [])).filterMap Occurrence.problem?

theorem Scope.outermost_matching : outermost.matching q = [] := rfl

theorem Program.resolve_reads (hq : OfNames q) (p : Program) (hp : p.Undecorated) :
    p.resolve.1.uses = p.occurrences.map Occurrence.settled ∧
    p.resolve.2.matching q = p.nameProblems.filter (q ·.cause) := by
  cases p with
  | letIn classes decls body =>
    obtain ⟨h₁, huses₁, hproblems₁⟩ := ClassDecl.resolveAll_reads hq classes outermost_agrees hp.2
    have hdecls := Decl.resolveAll_reads hq decls h₁
    obtain ⟨-, huses, hproblems⟩ := hdecls.append (body.resolve_reads hq hdecls.agrees)
    refine ⟨?_, ?_⟩
    · rw [Program.occurrences, List.append_assoc, List.map_append, ← huses₁]
      rw [List.nil_append] at huses
      rw [← huses, ← List.append_assoc]; rfl
    · rw [hproblems₁, outermost_matching, List.nil_append, List.nil_append] at hproblems
      rw [nameProblems, List.filter_append]
      exact hproblems
  | expr body =>
    obtain ⟨-, huses, hproblems⟩ := body.resolve_reads hq outermost_agrees
    rw [outermost_matching, List.nil_append] at hproblems
    exact ⟨huses, hproblems⟩

/-! ## Lexical scoping -/

theorem Program.Undecorated.uses {p : Program} (hp : p.Undecorated) :
    ∀ u ∈ p.uses, u.resolution = none := by
  cases p with
  | letIn => exact hp.1
  | expr => exact hp

theorem Program.Undecorated.settled {p : Program} (hp : p.Undecorated) :
    p.occurrences.map Occurrence.settled = p.occurrences.map Occurrence.decorated := by
  refine List.map_congr_left fun q hq => ?_
  have hu : q.use ∈ p.uses := by
    rw [← p.occurrences_use]; exact List.mem_map_of_mem hq
  have hnone := hp.uses q.use hu
  rw [Occurrence.settled, Occurrence.decorated, hnone]
  cases q.view.resolution? q.use.name <;> rfl

theorem Occurrence.problem?_cause {q : Occurrence} {d : Diagnostic} (h : q.problem? = some d) :
    d.cause.isNotDeclared = true ∧ d.cause.isDuplicateMethod = false := by
  unfold Occurrence.problem? at h
  split at h
  · cases h
  · cases h; exact ⟨rfl, rfl⟩

theorem filter_isNotDeclared (ps : List Occurrence) :
    (ps.filterMap Occurrence.problem?).filter (·.cause.isNotDeclared) = ps.filterMap Occurrence.problem? := by
  refine List.filter_eq_self.mpr fun d hd => ?_
  obtain ⟨q, -, hq⟩ := List.mem_filterMap.mp hd
  exact (Occurrence.problem?_cause hq).1

theorem filter_isDuplicateMethod (ps : List Occurrence) :
    (ps.filterMap Occurrence.problem?).filter (·.cause.isDuplicateMethod) = [] := by
  refine List.filter_eq_nil_iff.mpr fun d hd => ?_
  obtain ⟨q, -, hq⟩ := List.mem_filterMap.mp hd
  rw [(Occurrence.problem?_cause hq).2]; exact Bool.false_ne_true

theorem filter_repetitions (c : String) (ms : List Method) :
    (ms.map (Method.repetition c)).filter (·.cause.isNotDeclared) = [] ∧
    (ms.map (Method.repetition c)).filter (·.cause.isDuplicateMethod) = ms.map (Method.repetition c) := by
  constructor
  · refine List.filter_eq_nil_iff.mpr fun d hd => ?_
    obtain ⟨m, -, rfl⟩ := List.mem_map.mp hd
    exact Bool.false_ne_true
  · refine List.filter_eq_self.mpr fun d hd => ?_
    obtain ⟨m, -, rfl⟩ := List.mem_map.mp hd
    rfl

theorem ClassDecl.problemsAll_isNotDeclared (cs : List ClassDecl) :
    ∀ earlier, (problemsAll earlier cs).filter (·.cause.isNotDeclared) =
      (occurrencesAll earlier cs).filterMap Occurrence.problem? := by
  induction cs with
  | nil => exact fun _ => rfl
  | cons c cs ih =>
    intro earlier
    rw [problemsAll, List.filter_append, List.filter_append, ih, (filter_repetitions _ _).1,
      filter_isNotDeclared, occurrencesAll, List.filterMap_append, List.nil_append]

theorem ClassDecl.problemsAll_isDuplicateMethod (cs : List ClassDecl) :
    ∀ earlier, (problemsAll earlier cs).filter (·.cause.isDuplicateMethod) =
      cs.flatMap fun c => c.repeatedMethods.map (Method.repetition c.name) := by
  induction cs with
  | nil => exact fun _ => rfl
  | cons c cs ih =>
    intro earlier
    rw [problemsAll, List.filter_append, List.filter_append, ih, (filter_repetitions _ _).2,
      filter_isDuplicateMethod, List.append_nil, List.flatMap_cons]

theorem Program.nameProblems_isNotDeclared (p : Program) :
    p.nameProblems.filter (·.cause.isNotDeclared) = p.occurrences.filterMap Occurrence.problem? := by
  cases p with
  | letIn classes decls body =>
    rw [nameProblems, List.filter_append, ClassDecl.problemsAll_isNotDeclared, filter_isNotDeclared,
      occurrences, List.filterMap_append, List.filterMap_append, List.filterMap_append, List.append_assoc]
  | expr body => exact filter_isNotDeclared _

theorem Program.nameProblems_isDuplicateMethod (p : Program) :
    p.nameProblems.filter (·.cause.isDuplicateMethod) = p.repetitions := by
  cases p with
  | letIn classes decls body =>
    rw [nameProblems, List.filter_append, ClassDecl.problemsAll_isDuplicateMethod,
      filter_isDuplicateMethod, List.append_nil, repetitions]
  | expr body => exact filter_isDuplicateMethod _

/--
Resolution is lexical scoping. In a program as it has been read, every use outside the methods
reported as repetitions gets the meaning that it has where it stands; it is reported as not declared
just where it has none, these reports coming in the order of the uses; and a meaning is that of the
innermost declaration of the name, with the levels of the two scopes.
-/
theorem Program.resolve_lexical (p : Program) (hp : p.Undecorated) :
    p.occurrences.map (·.use) = p.uses ∧
    p.resolve.1.uses = p.occurrences.map Occurrence.decorated ∧
    p.resolve.2.problems.filter (·.cause.isNotDeclared) = p.occurrences.filterMap Occurrence.problem? ∧
    p.resolve.2.problems.filter (·.cause.isDuplicateMethod) = p.repetitions ∧
    ∀ q ∈ p.occurrences, ∀ r, q.view.resolution? q.use.name = some r → q.Means r := by
  have hnot : OfNames Cause.isNotDeclared := fun c h => (Bool.or_eq_false_iff.mp h).1
  have htwice : OfNames Cause.isDuplicateMethod := fun c h => (Bool.or_eq_false_iff.mp h).2
  obtain ⟨huses, hproblems⟩ := p.resolve_reads hnot hp
  obtain ⟨-, hrepetitions⟩ := p.resolve_reads htwice hp
  refine ⟨p.occurrences_use, huses.trans hp.settled, ?_, ?_, ?_⟩
  · exact hproblems.trans p.nameProblems_isNotDeclared
  · exact hrepetitions.trans p.nameProblems_isDuplicateMethod
  · exact fun q hq r hr => (p.occurrences_leveled q hq).means hr

/-- `let var x:int = x; fun f:int (x:int) let fun g:bool () x == y; in g(); in f(x);` -/
def shadowing : Program :=
  .letIn [] [.var "x" .int (.id "x" none 1) 1,
    .function ⟨"f", .int, [⟨"x", .int, 1⟩], 1⟩
      [.function ⟨"g", .bool, [], 1⟩ [] (.binary .equal (.id "x" none 1) (.id "y" none 1) 1)]
      (.call "g" [] none 1)]
    (.call "f" [.id "x" none 1] none 1)

theorem resolve_shadowing : shadowing.Undecorated ∧
    shadowing.resolve.1.uses.map (fun u => (u.name, u.resolution.map (·.hops))) =
      [("x", none), ("x", some 1), ("y", none), ("g", some 0), ("f", some 0), ("x", some 0)] := by
  have h : shadowing.Undecorated := by unfold shadowing Program.Undecorated; decide
  refine ⟨h, ?_⟩
  rw [(shadowing.resolve_lexical h).2.1]
  decide

end FoolLang
