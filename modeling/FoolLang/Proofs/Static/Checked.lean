/-
A program without problems of resolution and of typing is sound: resolution decorates it as lexical
scoping says, and what is checked against a type without a problem there has a type that fits.
-/
import FoolLang.Proofs.Static.Decorated

namespace FoolLang

open Scope

variable {classes earlier : List ClassDecl} {v : View} {type : Ty}

/-! ## Decorated trees without problems -/

/-- An expression that is checked against a type without a problem has a type that fits. -/
theorem Expr.sound_of_problems {e : Expr} {cause : Ty → Cause} {line : Nat} (h : e.Resolved classes v)
    (hp : Typed.problems (do let t ← e.type; Typed.ensure (t.subtype type) (cause t) line) = []) :
    e.Sound classes v type := by
  have hcomplete := (e.type_complete h.decorated).bind fun t =>
    Typed.Complete.ensure (t.subtype type) (cause t) line
  obtain ⟨_, hok⟩ := hcomplete.ok hp
  obtain ⟨t, ht, hensure⟩ := Sequencing.except_bind_ok hok
  exact ⟨h, t, ht, Typed.ensure_eq_ok hensure⟩

mutual

theorem Decl.sound_of_problems : ∀ (d : Decl) {v : View}, d.Valued → d.Resolved classes v →
    d.typeProblems = [] → d.Sound classes v
  | .var _ _ _ _, _, hd, h, hp => ⟨hd, Expr.sound_of_problems h hp⟩
  | .function _ locals _, _, ⟨hparams, hd⟩, ⟨hlocals, hbody⟩, hp => by
    obtain ⟨hp₁, hp₂⟩ := List.append_eq_nil_iff.mp hp
    exact ⟨hparams, Decl.soundAll_of_problems locals hd hlocals hp₁, Expr.sound_of_problems hbody hp₂⟩

theorem Decl.soundAll_of_problems : ∀ (ds : List Decl) {v : View}, Decl.ValuedAll ds →
    Decl.ResolvedAll classes v ds → Decl.typeProblemsAll ds = [] → Decl.SoundAll classes v ds
  | [], _, _, _, _ => trivial
  | d :: ds, _, ⟨hd, hds⟩, ⟨h, hrest⟩, hp => by
    obtain ⟨hp₁, hp₂⟩ := List.append_eq_nil_iff.mp hp
    exact ⟨Decl.sound_of_problems d hd h hp₁, Decl.soundAll_of_problems ds hds hrest hp₂⟩

end

theorem Method.sound_of_problems {m : Method} (hv : m.Valued) (h : m.routine.Resolved classes v)
    (hp : m.typeProblems = []) : m.routine.Sound classes v m.header.result := by
  obtain ⟨hp₁, hp₂⟩ := List.append_eq_nil_iff.mp hp
  exact ⟨hv.1, Decl.soundAll_of_problems m.locals hv.2 h.1 hp₁, Expr.sound_of_problems h.2 hp₂⟩

theorem ClassDecl.sound_of_problems {c : ClassDecl} (hv : c.Valued) (h : c.Resolved classes earlier)
    (hp : c.typeProblems = []) : c.Sound classes earlier := by
  refine ⟨h.fields, hv.1, h.methods, h.distinct, h.slots, fun m hm => ?_⟩
  exact Method.sound_of_problems (hv.2 m hm) (h.routines m hm) (List.flatMap_eq_nil_iff.mp hp m hm)

theorem Program.sound_of_problems {p : Program} (hv : p.Valued) (h : p.Resolved) (hp : p.typeProblems = []) :
    p.Sound := by
  have hparts : p.classes.flatMap ClassDecl.typeProblems = [] ∧ Decl.typeProblemsAll p.decls = [] ∧
      p.body.type.problems = [] := by
    cases p with
    | letIn classes decls body =>
      obtain ⟨hp₁₂, hp₃⟩ := List.append_eq_nil_iff.mp hp
      obtain ⟨hp₁, hp₂⟩ := List.append_eq_nil_iff.mp hp₁₂
      exact ⟨hp₁, hp₂, hp₃⟩
    | expr body => exact ⟨rfl, rfl, hp⟩
  obtain ⟨hclasses, hdecls, hbody⟩ := hparts
  refine ⟨h.distinct, fun i c hi => ?_, Decl.soundAll_of_problems _ hv.2 h.decls hdecls, h.body,
    (p.body.type_complete h.body.decorated).ok hbody⟩
  have hmem := List.mem_of_getElem? hi
  exact ClassDecl.sound_of_problems (hv.1 c hmem) (h.classes i c hi) (List.flatMap_eq_nil_iff.mp hclasses c hmem)

/-! ## Types through resolution -/

mutual

theorem Decl.resolve_valued : ∀ (d : Decl) (s : Scope), d.Valued → (d.resolve.run s).1.Valued
  | .var _ _ _ _, _, h => h
  | .function _ locals _, _, h => ⟨h.1, Decl.resolveAll_valued locals _ h.2⟩

theorem Decl.resolveAll_valued : ∀ (ds : List Decl) (s : Scope), Decl.ValuedAll ds →
    Decl.ValuedAll ((Decl.resolveAll ds).run s).1
  | [], _, _ => trivial
  | d :: ds, _, h => ⟨Decl.resolve_valued d _ h.1, Decl.resolveAll_valued ds _ h.2⟩

end

theorem Method.resolveAll_valued (ms : List Method) : ∀ s : Scope, (∀ m ∈ ms, m.Valued) →
    ∀ m ∈ ((Method.resolveAll ms).run s).1, m.Valued := by
  induction ms with
  | nil => exact fun _ h => h
  | cons m ms ih =>
    intro s h
    obtain ⟨hm, hms⟩ := List.forall_mem_cons.mp h
    cases hslot : m.slot with
    | none =>
      rw [Method.resolveAll_cons_none hslot]
      exact List.forall_mem_cons.mpr ⟨hm, ih s hms⟩
    | some slot =>
      rw [Method.resolveAll_cons_some hslot]
      exact List.forall_mem_cons.mpr ⟨⟨hm.1, Decl.resolveAll_valued m.locals _ hm.2⟩, ih _ hms⟩

theorem ClassDecl.declareMethods_valued (c : String) (ms : List Method) : ∀ (before : List Method)
    (slot : Int32) (s : Scope), (∀ m ∈ ms, m.Valued) →
      ∀ m ∈ ((declareMethods c before ms slot).run s).1.1, m.Valued := by
  induction ms with
  | nil => exact fun _ _ _ h => h
  | cons m ms ih =>
    intro before slot s h
    obtain ⟨hm, hms⟩ := List.forall_mem_cons.mp h
    rw [declareMethods]
    split
    · exact List.forall_mem_cons.mpr ⟨hm, ih _ _ _ hms⟩
    · exact List.forall_mem_cons.mpr ⟨hm, ih _ _ _ hms⟩

theorem ClassDecl.resolve_valued (c : ClassDecl) (s : Scope) (h : c.Valued) : (c.resolve.run s).1.Valued :=
  ⟨h.1, Method.resolveAll_valued _ _ (declareMethods_valued c.name c.methods [] 0 _ h.2)⟩

theorem ClassDecl.resolveAll_valued (cs : List ClassDecl) : ∀ s : Scope, (∀ c ∈ cs, c.Valued) →
    ∀ c ∈ ((resolveAll cs).run s).1, c.Valued := by
  induction cs with
  | nil => exact fun _ h => h
  | cons c cs ih =>
    intro s h
    obtain ⟨hc, hcs⟩ := List.forall_mem_cons.mp h
    exact List.forall_mem_cons.mpr ⟨c.resolve_valued s hc, ih _ hcs⟩

/-- Resolution changes no written type. -/
theorem Program.resolve_valued (p : Program) (h : p.Valued) : p.resolve.1.Valued := by
  cases p with
  | letIn classes decls body =>
    exact ⟨ClassDecl.resolveAll_valued classes _ h.1, Decl.resolveAll_valued decls _ h.2⟩
  | expr body => exact h

/-! ## Programs -/

/-- A program without problems of resolution and of typing is sound. -/
theorem Program.resolve_sound (p : Program) (hv : p.Valued) (hs : p.resolve.2.problems = [])
    (hp : p.resolve.1.typeProblems = []) : p.resolve.1.Sound :=
  Program.sound_of_problems (p.resolve_valued hv) (p.resolve_resolved hs) hp

end FoolLang
