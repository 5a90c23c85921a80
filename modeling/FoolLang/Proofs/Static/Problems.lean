/-
Resolution only adds problems, so a resolution that ends without any had none on the way: then every
declaration is the only one of its name in its scope, and no member of a class is a repetition.
-/
import FoolLang.Proofs.Scoping.Lines
import FoolLang.Proofs.Scoping.Occurrences

namespace FoolLang

open Scope

variable {s s' s'' : Scope} {v : View} {name kind : String} {b : Binding} {type : Ty} {line : Nat}

namespace Scope

/-- The problems of a scope are still there in another one, and what has come to them is of resolution. -/
def Grows (s s' : Scope) : Prop :=
  ∃ more, s'.problems = s.problems ++ more ∧ ∀ d ∈ more, d.phase = .resolution

/-- The problems of a scope are still there in another one, and what has come to them is of a sort. -/
def Adds (Q : Diagnostic → Prop) (s s' : Scope) : Prop := ∃ more, s'.problems = s.problems ++ more ∧ ∀ d ∈ more, Q d

/-- A sort takes in whatever resolution may report on a line. -/
def TakesIn (Q : Diagnostic → Prop) (l : Nat) : Prop := ∀ c : Cause, c.phase = .resolution → Q ⟨c, l⟩

variable {Q : Diagnostic → Prop}

theorem Adds.of_eq (h : s'.problems = s.problems) : s.Adds Q s' := ⟨[], by rw [h, List.append_nil], by simp⟩

theorem Adds.refl (s : Scope) : s.Adds Q s := .of_eq rfl

theorem Adds.trans (h : s.Adds Q s') (h' : s'.Adds Q s'') : s.Adds Q s'' := by
  obtain ⟨more, hm, hq⟩ := h
  obtain ⟨more', hm', hq'⟩ := h'
  exact ⟨more ++ more', by rw [hm', hm, List.append_assoc], List.forall_mem_append.mpr ⟨hq, hq'⟩⟩

/-- Where nothing was wrong before, everything that is wrong is of the sort. -/
theorem Adds.all (h : s.Adds Q s') (hs : s.problems = []) : ∀ d ∈ s'.problems, Q d := by
  obtain ⟨more, hm, hq⟩ := h
  rw [hm, hs]
  exact hq

theorem Grows.trans (h : s.Grows s') (h' : s'.Grows s'') : s.Grows s'' := Adds.trans h h'

theorem Grows.nil (h : s.Grows s') (hs : s'.problems = []) : s.problems = [] := by
  obtain ⟨more, hm, -⟩ := h
  rw [hs] at hm
  exact (List.append_eq_nil_iff.mp hm.symm).1

/-- On every line, all that resolution reports is of resolution. -/
theorem takesIn_phase {ls : List Nat} : ∀ l ∈ ls, TakesIn (·.phase = .resolution) l := fun _ _ _ hc => hc

theorem report_adds (c : Cause) (hc : c.phase = .resolution) (hl : TakesIn Q line) : s.Adds Q (s.report c line) :=
  ⟨[⟨c, line⟩], rfl, List.forall_mem_singleton.mpr (hl c hc)⟩

theorem report_ne_nil (c : Cause) : (s.report c line).problems ≠ [] := by simp [report]

theorem declare_adds (hl : TakesIn Q line) : s.Adds Q (s.declare kind name b line) := by
  unfold declare
  split
  · exact .refl s
  · split
    · exact report_adds _ rfl hl
    · exact .of_eq rfl

theorem declareNext_adds (hl : TakesIn Q line) : s.Adds Q (s.declareNext kind name type line) :=
  (Adds.of_eq (s := s) rfl).trans (declare_adds hl)

theorem declareParams_adds (params : List Formal) (h : ∀ l ∈ params.map (·.line), TakesIn Q l) :
    ∀ (s : Scope) (offset : Int32), s.Adds Q (s.declareParams params offset) := by
  induction params with
  | nil => exact fun s _ => .refl s
  | cons p ps ih =>
    obtain ⟨hp, hps⟩ := List.forall_mem_cons.mp h
    exact fun s offset => (declare_adds hp).trans (ih hps _ _)

theorem declareClass_adds (hl : TakesIn Q line) : s.Adds Q (s.declareClass name b line) := by
  unfold declareClass
  split
  · exact .refl s
  · split
    · exact report_adds _ rfl hl
    · exact .of_eq rfl

theorem declareNext_grows : s.Grows (s.declareNext kind name type line) := declareNext_adds fun _ hc => hc

theorem declareParams_grows (params : List Formal) (s : Scope) (offset : Int32) :
    s.Grows (s.declareParams params offset) :=
  declareParams_adds params takesIn_phase s offset

theorem declareClass_grows : s.Grows (s.declareClass name b line) := declareClass_adds fun _ hc => hc

end Scope

variable {Q : Diagnostic → Prop}

/-! ## Problems on the way -/

theorem Expr.receiverClass?_phase {e : Expr} {c : Cause} (h : e.receiverClass? s = .error c) :
    c.phase = .resolution := by
  unfold Expr.receiverClass? at h
  split at h <;> try split at h
  all_goals cases h
  all_goals rfl

theorem Scope.callProblem?_phase {receiver : Expr} {method : String} {c : Cause}
    (h : s.callProblem? receiver method = some c) : c.phase = .resolution := by
  unfold callProblem? at h
  split at h
  · rename_i hr
    cases h
    exact Expr.receiverClass?_phase hr
  · cases h
  · split at h
    · split at h
      · cases h
      · cases h; rfl
    · cases h; rfl

mutual

/-- What is wrong with the uses in an expression is on its lines. -/
theorem Expr.problems_taken (s : Scope) : ∀ e : Expr, (∀ l ∈ e.lines, TakesIn Q l) → ∀ d ∈ e.problems s, Q d
  | .int _ _, _ | .bool _ _, _ | .null _, _ => by simp [Expr.problems]
  | .binary _ a b _, h => by
    obtain ⟨ha, hb⟩ := List.forall_mem_append.mp (List.forall_mem_cons.mp h).2
    exact List.forall_mem_append.mpr ⟨problems_taken s a ha, problems_taken s b hb⟩
  | .not e _, h | .print e _, h => problems_taken s e (List.forall_mem_cons.mp h).2
  | .cond c a b _, h => by
    obtain ⟨hca, hb⟩ := List.forall_mem_append.mp (List.forall_mem_cons.mp h).2
    obtain ⟨hc, ha⟩ := List.forall_mem_append.mp hca
    exact List.forall_mem_append.mpr
      ⟨List.forall_mem_append.mpr ⟨problems_taken s c hc, problems_taken s a ha⟩, problems_taken s b hb⟩
  | .id name _ l, h => by
    rw [Expr.problems]
    split
    · simp
    · exact List.forall_mem_singleton.mpr (h l List.mem_cons_self _ rfl)
  | .call name args _ l, h => by
    obtain ⟨hl, hargs⟩ := List.forall_mem_cons.mp h
    refine List.forall_mem_append.mpr ⟨?_, problemsAll_taken s args hargs⟩
    split
    · simp
    · exact List.forall_mem_singleton.mpr (hl _ rfl)
  | .new c args _ l, h => by
    obtain ⟨hl, hargs⟩ := List.forall_mem_cons.mp h
    refine List.forall_mem_append.mpr ⟨?_, problemsAll_taken s args hargs⟩
    split
    · simp
    · exact List.forall_mem_singleton.mpr (hl _ rfl)
  | .methodCall receiver method args _ l, h => by
    obtain ⟨hl, hparts⟩ := List.forall_mem_cons.mp h
    obtain ⟨hreceiver, hargs⟩ := List.forall_mem_append.mp hparts
    refine List.forall_mem_append.mpr
      ⟨List.forall_mem_append.mpr ⟨problems_taken s receiver hreceiver, ?_⟩, problemsAll_taken s args hargs⟩
    split
    · rename_i c hc
      exact List.forall_mem_singleton.mpr (hl c (callProblem?_phase hc))
    · simp

/-- What is wrong with the uses in some expressions is on their lines. -/
theorem Expr.problemsAll_taken (s : Scope) : ∀ es : List Expr, (∀ l ∈ Expr.linesAll es, TakesIn Q l) →
    ∀ d ∈ Expr.problemsAll s es, Q d
  | [], _ => by simp [Expr.problemsAll]
  | e :: es, h => by
    obtain ⟨he, hes⟩ := List.forall_mem_append.mp h
    exact List.forall_mem_append.mpr ⟨problems_taken s e he, problemsAll_taken s es hes⟩

end

theorem Expr.resolve_adds (e : Expr) (h : ∀ l ∈ e.lines, TakesIn Q l) (s : Scope) : s.Adds Q (e.resolve.run s).2 :=
  ⟨_, rfl, e.problems_taken s h⟩

mutual

theorem Decl.resolve_adds : ∀ d : Decl, (∀ l ∈ d.lines, TakesIn Q l) → ∀ s : Scope, s.Adds Q (d.resolve.run s).2
  | .var _ _ value _, h, s => by
    obtain ⟨hl, hvalue⟩ := List.forall_mem_cons.mp h
    exact (value.resolve_adds hvalue s).trans (declareNext_adds hl)
  | .function header locals body, h, s => by
    obtain ⟨hheader, hinside⟩ := List.forall_mem_append.mp h
    obtain ⟨hl, hparams⟩ := List.forall_mem_cons.mp hheader
    obtain ⟨hlocals, hbody⟩ := List.forall_mem_append.mp hinside
    have hself : s.Adds Q (s.declareNext "Fun" header.name (.arrow header.signature) header.line) :=
      declareNext_adds hl
    have hparams := declareParams_adds header.params hparams
      (s.declareNext "Fun" header.name (.arrow header.signature) header.line).enter 1
    have hlocals := Decl.resolveAll_adds locals hlocals
      ((s.declareNext "Fun" header.name (.arrow header.signature) header.line).enter.declareParams
        header.params 1)
    exact (hself.trans (hparams.trans (hlocals.trans (body.resolve_adds hbody _)))).trans (.of_eq rfl)

theorem Decl.resolveAll_adds : ∀ ds : List Decl, (∀ l ∈ Decl.linesAll ds, TakesIn Q l) →
    ∀ s : Scope, s.Adds Q ((Decl.resolveAll ds).run s).2
  | [], _, s => .refl s
  | d :: ds, h, s => by
    obtain ⟨hd, hds⟩ := List.forall_mem_append.mp h
    exact (Decl.resolve_adds d hd s).trans (Decl.resolveAll_adds ds hds _)

end

theorem Method.resolve_adds (m : Method) (h : ∀ l ∈ m.lines, TakesIn Q l) (s : Scope) :
    s.Adds Q (m.resolve.run s).2 := by
  obtain ⟨hheader, hinside⟩ := List.forall_mem_append.mp h
  obtain ⟨hlocals, hbody⟩ := List.forall_mem_append.mp hinside
  have hparams := declareParams_adds m.header.params (List.forall_mem_cons.mp hheader).2 s.enter 1
  have hlocals := Decl.resolveAll_adds m.locals hlocals (s.enter.declareParams m.header.params 1)
  exact (hparams.trans (hlocals.trans (m.body.resolve_adds hbody _))).trans (.of_eq rfl)

theorem Method.resolveAll_adds (ms : List Method) (h : ∀ l ∈ ms.flatMap Method.lines, TakesIn Q l) :
    ∀ s : Scope, s.Adds Q ((Method.resolveAll ms).run s).2 := by
  induction ms with
  | nil => exact Adds.refl
  | cons m ms ih =>
    intro s
    obtain ⟨hself, hms⟩ := List.forall_mem_append.mp (List.flatMap_cons ▸ h)
    cases hm : m.slot with
    | none => rw [Method.resolveAll_cons_none hm]; exact ih hms s
    | some slot => rw [Method.resolveAll_cons_some hm]; exact (m.resolve_adds hself s).trans (ih hms _)

theorem Expr.resolve_grows (e : Expr) (s : Scope) : s.Grows (e.resolve.run s).2 := e.resolve_adds takesIn_phase s

theorem Decl.resolveAll_grows (ds : List Decl) (s : Scope) : s.Grows ((Decl.resolveAll ds).run s).2 :=
  Decl.resolveAll_adds ds takesIn_phase s

theorem Method.resolveAll_grows (ms : List Method) (s : Scope) : s.Grows ((Method.resolveAll ms).run s).2 :=
  Method.resolveAll_adds ms takesIn_phase s

/-! ## Uses without problems -/

/-- A method call that nothing is wrong with, on a receiver that has a class or a problem, has an entry. -/
theorem Scope.callEntry?_isSome {receiver : Expr} {method : String} (hclass : receiver.receiverClass? s ≠ .ok none)
    (hp : s.callProblem? receiver method = none) : (s.callEntry? receiver method).isSome = true := by
  unfold callProblem? at hp
  unfold callEntry?
  cases hr : receiver.receiverClass? s with
  | error cause => rw [hr] at hp; cases hp
  | ok c? =>
    cases c? with
    | none => exact absurd hr hclass
    | some c =>
      simp only [hr] at hp ⊢
      split at hp
      · split at hp
        · rename_i he; rw [he]; rfl
        · cases hp
      · cases hp

theorem Expr.callProblem?_of_problems {receiver : Expr} {method : String} {args : List Expr}
    {b : Option Binding} {l : Nat}
    (hp : (Expr.methodCall receiver method args b l).problems s = []) : receiver.problems s = [] ∧
      s.callProblem? (receiver.decorate s) method = none ∧ Expr.problemsAll s args = [] := by
  rw [Expr.problems, List.append_eq_nil_iff, List.append_eq_nil_iff] at hp
  obtain ⟨⟨hreceiver, hcall⟩, hargs⟩ := hp
  refine ⟨hreceiver, ?_, hargs⟩
  cases hc : s.callProblem? (receiver.decorate s) method with
  | none => rfl
  | some cause => rw [hc] at hcall; cases hcall

/-- A receiver that nothing is wrong with has a class or a problem. -/
theorem Expr.receiverClass?_ne_none : ∀ e : Expr, e.problems s = [] → (e.decorate s).receiverClass? s ≠ .ok none
  | .int _ _, _ | .bool _ _, _ | .null _, _ | .binary _ _ _ _, _ | .not _ _, _ | .cond _ _ _ _, _
  | .print _ _, _ => by simp [Expr.decorate, Expr.receiverClass?]
  | .id name r l, hp => by
    rw [Expr.problems] at hp
    rw [Expr.decorate, Scope.resolution?]
    cases hl : s.lookup name with
    | none => rw [hl] at hp; cases hp
    | some b =>
      show Expr.receiverClass? s (.id name (some ⟨b, s.level⟩) l) ≠ _
      rw [Expr.receiverClass?]
      split <;> simp
  | .call name args r l, hp => by
    rw [Expr.problems, List.append_eq_nil_iff] at hp
    rw [Expr.decorate, Scope.resolution?]
    cases hl : s.lookup name with
    | none => rw [hl] at hp; cases hp.1
    | some b =>
      show Expr.receiverClass? s (.call name _ (some ⟨b, s.level⟩) l) ≠ _
      rw [Expr.receiverClass?]
      split <;> simp
  | .new c args r l, hp => by
    rw [Expr.problems, List.append_eq_nil_iff] at hp
    have hc : s.classes.contains c = true := by
      by_contra hc
      rw [if_neg hc] at hp
      cases hp.1
    simp [Expr.decorate, Expr.receiverClass?, hc]
  | .methodCall receiver method args b l, hp => by
    obtain ⟨hreceiver, hcall, -⟩ := Expr.callProblem?_of_problems hp
    obtain ⟨e, he⟩ := Option.isSome_iff_exists.mp
      (callEntry?_isSome (receiver.receiverClass?_ne_none hreceiver) hcall)
    rw [Expr.decorate, he]
    show Expr.receiverClass? s (.methodCall _ method _ (some e) l) ≠ _
    rw [Expr.receiverClass?]
    split <;> simp

/-! ## Declarations without problems -/

namespace Scope

theorem lookup_eq_none_iff (ns : Names) : ns.lookup name = none ↔ name ∉ ns.map (·.1) := by
  rw [List.lookup_eq_none_iff]
  simp only [List.mem_map, not_exists, not_and]
  exact ⟨fun h x hx he => by simpa [he] using h x hx, fun h x hx => by simpa using fun he => h x hx he.symm⟩

/-- A name that is declared without a problem is the only one of its scope. -/
theorem Agrees.fresh (h : s.Agrees v) (hs : (s.declare kind name b line).problems = []) :
    name ∉ v.own.map (·.1) := by
  obtain ⟨frames, -, -⟩ := h
  rw [View.scopes] at frames
  unfold Scope.declare at hs
  split at hs
  · rename_i hf; rw [hf] at frames; cases frames
  · rename_i frame outer hf
    rw [hf] at frames
    have hshows := (List.forall₂_cons.mp frames).1
    split at hs
    · exact absurd hs (report_ne_nil _)
    · rename_i hc
      rw [← lookup_eq_none_iff, ← hshows name]
      simpa [Table.contains] using hc

/-- A class that is declared without a problem is the only one of its name in the outermost scope. -/
theorem Agrees.fresh_class {own outer : Names} {taken : Nat} (h : s.Agrees ⟨own, [outer], taken⟩)
    (hs : (s.declareClass name b line).problems = []) : name ∉ outer.map (·.1) := by
  obtain ⟨frames, -, -⟩ := h
  match hf : s.frames, frames with
  | [frame, last], .cons _ (.cons hlast .nil) =>
    unfold Scope.declareClass at hs
    simp only [hf, List.getLast?_cons_cons, List.getLast?_singleton] at hs
    split at hs
    · exact absurd hs (report_ne_nil _)
    · rename_i hc
      rw [← lookup_eq_none_iff, ← hlast name]
      simpa [Table.contains] using hc

end Scope

namespace ClassDecl

theorem declareFields_adds (c : String) (fs : List Formal) (h : ∀ l ∈ fs.map (·.line), TakesIn Q l) :
    ∀ (earlier : List Formal) (offset : Int32) (s : Scope),
      s.Adds Q ((declareFields c earlier fs offset).run s).2 := by
  induction fs with
  | nil => exact fun _ _ s => .refl s
  | cons f fs ih =>
    obtain ⟨hf, hfs⟩ := List.forall_mem_cons.mp h
    intro earlier offset s
    rw [declareFields]
    split
    · exact (report_adds _ rfl hf).trans (ih hfs (f :: earlier) offset _)
    · exact (declare_adds hf).trans (ih hfs (f :: earlier) (offset - 1) _)

theorem declareMethods_adds (c : String) (ms : List Method) (h : ∀ l ∈ ms.flatMap Method.lines, TakesIn Q l) :
    ∀ (earlier : List Method) (slot : Int32) (s : Scope),
      s.Adds Q ((declareMethods c earlier ms slot).run s).2 := by
  induction ms with
  | nil => exact fun _ _ s => .refl s
  | cons m ms ih =>
    obtain ⟨hself, hms⟩ := List.forall_mem_append.mp (List.flatMap_cons ▸ h)
    have hl : TakesIn Q m.header.line := hself _ (List.mem_append_left _ List.mem_cons_self)
    intro earlier slot s
    rw [declareMethods]
    split
    · exact (report_adds _ rfl hl).trans (ih hms (m :: earlier) slot _)
    · exact (declare_adds hl).trans (ih hms (m :: earlier) (slot + 1) _)

theorem declareFields_grows (c : String) (fs earlier : List Formal) (offset : Int32) (s : Scope) :
    s.Grows ((declareFields c earlier fs offset).run s).2 :=
  declareFields_adds c fs takesIn_phase earlier offset s

theorem declareMethods_grows (c : String) (ms earlier : List Method) (slot : Int32) (s : Scope) :
    s.Grows ((declareMethods c earlier ms slot).run s).2 :=
  declareMethods_adds c ms takesIn_phase earlier slot s

theorem declareFields_nil (c : String) (fs : List Formal) :
    ∀ {s : Scope} {v : View} (earlier : List Formal) (offset : Int32), s.Agrees v →
      (v.own.map (·.1)).Nodup → ((declareFields c earlier fs offset).run s).2.problems = [] →
      firsts Formal.sameAs earlier fs = fs ∧
        ((fs.map (·.name)).reverse ++ v.own.map (·.1)).Nodup := by
  induction fs with
  | nil => exact fun _ _ _ hd _ => ⟨rfl, hd⟩
  | cons f fs ih =>
    intro s v earlier offset h hd hs
    have hsame : (earlier.any fun g => g.name == f.name && g.type == f.type) =
        earlier.any (Formal.sameAs f) := rfl
    rw [declareFields, hsame] at hs
    rw [firsts]
    by_cases hf : earlier.any (Formal.sameAs f) = true
    · rw [if_pos hf] at hs
      exact absurd ((declareFields_grows c fs _ _ _).nil hs) (report_ne_nil _)
    · rw [if_neg hf] at hs
      have hfield : (s.declare "Field" f.name ⟨s.level, f.type, offset, false⟩ f.line).Agrees
          (v.add [(f.name, ⟨s.level, f.type, offset, false⟩)]) := h.declare
      have hnil : (s.declare "Field" f.name ⟨s.level, f.type, offset, false⟩ f.line).problems = [] :=
        (declareFields_grows c fs _ _ _).nil hs
      obtain ⟨hfirsts, hnodup⟩ := ih (f :: earlier) (offset - 1) hfield
        (List.nodup_cons.mpr ⟨h.fresh hnil, hd⟩) hs
      rw [if_neg hf, hfirsts]
      refine ⟨rfl, ?_⟩
      simpa [View.add] using hnodup

theorem declareMethods_nil (c : String) (ms : List Method) :
    ∀ {s : Scope} {v : View} (earlier : List Method) (slot : Int32), s.Agrees v →
      (v.own.map (·.1)).Nodup → ((declareMethods c earlier ms slot).run s).2.problems = [] →
      firsts Method.sameAs earlier ms = ms ∧
        ((ms.map (·.header.name)).reverse ++ v.own.map (·.1)).Nodup := by
  induction ms with
  | nil => exact fun _ _ _ hd _ => ⟨rfl, hd⟩
  | cons m ms ih =>
    intro s v earlier slot h hd hs
    rw [declareMethods] at hs
    rw [firsts]
    by_cases hm : earlier.any m.sameAs = true
    · rw [if_pos hm] at hs
      exact absurd ((declareMethods_grows c ms _ _ _).nil hs) (report_ne_nil _)
    · rw [if_neg hm] at hs
      have hmethod : (s.declare "Method" m.header.name
          ⟨s.level, .arrow m.header.signature, slot, true⟩ m.header.line).Agrees
          (v.add [(m.header.name, ⟨s.level, .arrow m.header.signature, slot, true⟩)]) := h.declare
      have hnil : (s.declare "Method" m.header.name
          ⟨s.level, .arrow m.header.signature, slot, true⟩ m.header.line).problems = [] :=
        (declareMethods_grows c ms _ _ _).nil hs
      obtain ⟨hfirsts, hnodup⟩ := ih (m :: earlier) (slot + 1) hmethod
        (List.nodup_cons.mpr ⟨h.fresh hnil, hd⟩) hs
      rw [if_neg hm, hfirsts]
      refine ⟨rfl, ?_⟩
      simpa [View.add] using hnodup

/-- A class that is resolved without a problem repeats nothing and is the only one of its name. -/
theorem resolve_nil (c : ClassDecl) {earlier : List ClassDecl} (h : s.Agrees (.behindClasses earlier))
    (hs : (c.resolve.run s).2.problems = []) :
    c.ownFields = c.fields ∧ c.ownMethods = c.methods ∧ (c.memberNames.map (·.1)).Nodup ∧
      c.name ∉ (names earlier).map (·.1) := by
  obtain ⟨s₁, hrun₁, h₁, -, -⟩ := declareFields_run c.name c.fields [] 0 h.enter
  obtain ⟨s₂, hrun₂, h₂, -, -⟩ := declareMethods_run c.name c.methods [] 0 h₁
  have hview₁ : s₁.Agrees ⟨c.fieldNames.reverse, [names earlier], 0⟩ := by
    simpa [View.add, View.depth, View.scopes, View.behindClasses, fieldNames, ownFields] using h₁
  have hview₂ : s₂.Agrees ⟨c.memberNames, [names earlier], 0⟩ := by
    simpa [View.add, View.depth, View.scopes, View.behindClasses, memberNames, fieldNames,
      methodNames, ownFields, ownMethods] using h₂
  have hfields : (declareFields c.name [] c.fields (-1)).run s.enter =
      (c.ownFields.map (·.type), s₁) := hrun₁
  have hmethods : (declareMethods c.name [] c.methods 0).run s₁ =
      ((slotted [] c.methods 0, c.ownMethods.map (·.header.signature)), s₂) := hrun₂
  rw [resolve_run, hfields] at hs
  simp only [hmethods] at hs
  let s₃ : Scope := { s₂ with classes := s₂.classes.put c.name (s₂.frames.headD .empty) }
  have hview₃ : s₃.Agrees ⟨c.memberNames, [names earlier], 0⟩ :=
    ⟨hview₂.frames, hview₂.level, hview₂.offset⟩
  have hclass : (s₃.declareClass c.name ⟨0, c.type, s.nextOffset, false⟩ c.line).problems = [] :=
    (Method.resolveAll_grows _ _).nil hs
  have hnil₂ : s₂.problems = [] := declareClass_grows.nil (s := s₃) hclass
  have hgrows := declareMethods_grows c.name c.methods [] 0 s₁
  rw [hmethods] at hgrows
  obtain ⟨hownFields, hnodup⟩ := declareFields_nil c.name c.fields [] (-1) h.enter List.nodup_nil
    (by rw [hfields]; exact hgrows.nil hnil₂)
  have hf : c.ownFields = c.fields := hownFields
  obtain ⟨hownMethods, hnodup'⟩ := declareMethods_nil c.name c.methods [] 0 hview₁
    (by simpa [List.map_reverse, fieldNames_map, hf] using hnodup) (by rw [hmethods]; exact hnil₂)
  have hm : c.ownMethods = c.methods := hownMethods
  refine ⟨hf, hm, ?_, hview₃.fresh_class hclass⟩
  simpa [memberNames, List.map_reverse, fieldNames_map, methodNames_map, hm] using hnodup'

theorem names_map (cs : List ClassDecl) : (names cs).map (·.1) = (cs.map (·.name)).reverse := by
  rw [names, List.map_reverse]
  congr 1
  exact List.ext_getElem (by simp) (by simp)

/-- Methods have the same lines when they have got their slots. -/
theorem declareMethods_lines (c : String) (earlier ms : List Method) (slot : Int32) (s : Scope) :
    ((declareMethods c earlier ms slot).run s).1.1.flatMap Method.lines = ms.flatMap Method.lines := by
  have hbare : ∀ ms : List Method, (ms.map Method.bare).flatMap Method.lines = ms.flatMap Method.lines := fun ms => by
    simp only [List.flatMap_map, Method.lines_bare]
  rw [← hbare, declareMethods_bare, hbare]

theorem resolve_adds (c : ClassDecl) (h : ∀ l ∈ c.lines, TakesIn Q l) (s : Scope) : s.Adds Q (c.resolve.run s).2 := by
  obtain ⟨hl, hmembers⟩ := List.forall_mem_cons.mp h
  obtain ⟨hfields, hmethods⟩ := List.forall_mem_append.mp hmembers
  let r₁ := (declareFields c.name [] c.fields (-1)).run s.enter
  let r₂ := (declareMethods c.name [] c.methods 0).run r₁.2
  let s₂ := { r₂.2 with classes := r₂.2.classes.put c.name (r₂.2.frames.headD .empty) }
  have hadds₁ : s.Adds Q r₁.2 := declareFields_adds c.name c.fields hfields [] (-1) s.enter
  have hadds₂ : r₁.2.Adds Q s₂ := declareMethods_adds c.name c.methods hmethods [] 0 r₁.2
  have hclass : s₂.Adds Q (s₂.declareClass c.name ⟨0, .cls r₁.1 r₂.1.2, s.nextOffset, false⟩ c.line) :=
    declareClass_adds hl
  have hinside := Method.resolveAll_adds r₂.1.1 (declareMethods_lines c.name [] c.methods 0 r₁.2 ▸ hmethods)
  exact (hadds₁.trans hadds₂).trans (hclass.trans (hinside _))

theorem resolveAll_adds (cs : List ClassDecl) (h : ∀ l ∈ cs.flatMap ClassDecl.lines, TakesIn Q l) :
    ∀ s : Scope, s.Adds Q ((resolveAll cs).run s).2 := by
  induction cs with
  | nil => exact Adds.refl
  | cons c cs ih =>
    obtain ⟨hc, hcs⟩ := List.forall_mem_append.mp (List.flatMap_cons ▸ h)
    exact fun s => (c.resolve_adds hc s).trans (ih hcs _)

theorem resolveAll_grows (cs : List ClassDecl) (s : Scope) : s.Grows ((resolveAll cs).run s).2 :=
  resolveAll_adds cs takesIn_phase s

end ClassDecl

namespace Program

/-- What is wrong after the resolution of a program is what resolution may report on its lines. -/
theorem resolve_taken (p : Program) (h : ∀ l ∈ p.lines, TakesIn Q l) : ∀ d ∈ p.resolve.2.problems, Q d := by
  have hadds : Scope.outermost.Adds Q p.resolve.2 := by
    cases p with
    | letIn classes decls body =>
      obtain ⟨hclasses, hrest⟩ := List.forall_mem_append.mp h
      obtain ⟨hdecls, hbody⟩ := List.forall_mem_append.mp hrest
      have hclasses := ClassDecl.resolveAll_adds classes hclasses .outermost
      have hdecls := Decl.resolveAll_adds decls hdecls ((ClassDecl.resolveAll classes).run .outermost).2
      exact hclasses.trans (hdecls.trans (body.resolve_adds hbody _))
    | expr body => exact body.resolve_adds h _
  exact hadds.all rfl

theorem resolve_phase (p : Program) : ∀ d ∈ p.resolve.2.problems, d.phase = .resolution := p.resolve_taken takesIn_phase

/-- What resolution reports of a program is on a line of it. -/
theorem resolve_line (p : Program) : ∀ d ∈ p.resolve.2.problems, d.line ∈ p.lines := p.resolve_taken fun _ hl _ _ => hl

end Program

end FoolLang
