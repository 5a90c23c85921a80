/-
Lowering of renamed programs: labels are drawn from counters and places are offsets, so names and lines leave no
trace in the code. Two buffers that differ in the names of methods only draw the same labels and put the same
code aside; from there, what one of two renamed trees is lowered to, the other is lowered to as well.
-/
import FoolLang.Lowering
import FoolLang.Proofs.Renaming.Trees
import FoolLang.Proofs.Sequencing

namespace FoolLang

open Machine

variable {ρ : Renaming}

/-! ## Steps -/

/-- Buffers that have drawn and put aside the same; the names of methods are left open. -/
structure CodeBuffer.Same (b b' : CodeBuffer) : Prop where
  labelCount : b.labelCount = b'.labelCount
  routineCount : b.routineCount = b'.routineCount
  routines : b.routines = b'.routines

namespace Lowering

/-- Where the first lowering succeeds, the second does from a buffer of the same, with a related result. -/
def Follows {α β : Type} (r : α → β → Prop) (x : Lowering α) (y : Lowering β) : Prop :=
  ∀ b b' a c, b.Same b' → x.run b = .ok a c → ∃ a' c', y.run b' = .ok a' c' ∧ r a a' ∧ c.Same c'

namespace Follows

variable {α β γ δ : Type} {r : α → β → Prop} {q : γ → δ → Prop} {x : Lowering α} {y : Lowering β}
  {f : α → Lowering γ} {g : β → Lowering δ}

theorem bind (hx : Follows r x y) (hf : ∀ a b, r a b → Follows q (f a) (g b)) : Follows q (x >>= f) (y >>= g) := by
  intro b b' d e hb h
  obtain ⟨a, c, hrun, hrest⟩ := Sequencing.bind_ok h
  obtain ⟨a', c', hrun', hr, hc⟩ := hx b b' a c hb hrun
  obtain ⟨d', e', hrest', hq, he⟩ := hf a a' hr c c' d e hc hrest
  exact ⟨d', e', by rw [Sequencing.bind_run hrun', hrest'], hq, he⟩

theorem pure {a : α} {b : β} (h : r a b) : Follows r (Pure.pure a) (Pure.pure b) := by
  intro c c' d e hc hrun
  obtain ⟨rfl, rfl⟩ := Sequencing.pure_ok hrun
  exact ⟨b, c', rfl, h, hc⟩

theorem freshLabel : Follows (· = ·) freshLabel freshLabel := by
  intro b b' a c hb hrun
  cases hrun
  exact ⟨_, _, rfl, by rw [hb.labelCount], { hb with labelCount := congrArg (· + 1) hb.labelCount }⟩

theorem freshRoutineLabel : Follows (· = ·) freshRoutineLabel freshRoutineLabel := by
  intro b b' a c hb hrun
  cases hrun
  exact ⟨_, _, rfl, by rw [hb.routineCount], { hb with routineCount := congrArg (· + 1) hb.routineCount }⟩

theorem putCode (code : List Instruction) : Follows (· = ·) (putCode code) (putCode code) := by
  intro b b' a c hb hrun
  cases hrun
  exact ⟨_, _, rfl, rfl, { hb with routines := congrArg (· ++ code) hb.routines }⟩

theorem takeCode : Follows (· = ·) takeCode takeCode := by
  intro b b' a c hb hrun
  cases hrun
  exact ⟨_, _, rfl, hb.routines, { hb with routines := rfl }⟩

theorem recordMethodLabel (x x' m m' label : String) :
    Follows (· = ·) (recordMethodLabel x m label) (recordMethodLabel x' m' label) := by
  intro b b' a c hb hrun
  cases hrun
  exact ⟨_, _, rfl, rfl, { hb with }⟩

theorem decoration {o : Option α} {o' : Option β} {node node' : String} {l l' : Nat} (h : Option.Rel r o o') :
    Follows r (decoration node l o) (decoration node' l' o') := by
  cases h with
  | some h => exact .pure h
  | none =>
    intro b b' a c _ hrun
    cases hrun

end Follows

end Lowering

open Lowering

/-! ## Expressions -/

namespace Resolution.Renamed

variable {r r' : Resolution}

theorem frameOf (h : r.Renamed ρ r') : Code.frameOf r = Code.frameOf r' := by
  rw [Code.frameOf, Code.frameOf, Resolution.hops, Resolution.hops, h.entry.level, h.level]

theorem slotOf (h : r.Renamed ρ r') : Code.slotOf r = Code.slotOf r' := by
  rw [Code.slotOf, Code.slotOf, h.frameOf, h.entry.level, h.entry.offset]

end Resolution.Renamed

mutual

/-- Renamed expressions are lowered to the same code. -/
theorem Expr.Renamed.lower : ∀ {e e' : Expr}, e.Renamed ρ e' → Follows (· = ·) e.lower e'.lower
  | _, _, .int | _, _, .bool | _, _, .null => .pure rfl
  | .binary op _ _ _, _, .binary ha hb => by
    cases op with
    | and | or =>
      refine .bind .freshLabel fun _ _ hshort => .bind .freshLabel fun _ _ hdone => ?_
      exact .bind ha.lower fun _ _ ha => .bind hb.lower fun _ _ hb => .pure (by rw [hshort, hdone, ha, hb])
    | plus | minus | times | div =>
      exact .bind ha.lower fun _ _ ha => .bind hb.lower fun _ _ hb => .pure (by rw [ha, hb])
    | equal | lessEqual | greaterEqual =>
      refine .bind .freshLabel fun _ _ hok => .bind .freshLabel fun _ _ hdone => ?_
      exact .bind ha.lower fun _ _ ha => .bind hb.lower fun _ _ hb => .pure (by rw [hok, hdone, ha, hb])
  | _, _, .not he => .bind he.lower fun _ _ he => .pure (by rw [he])
  | _, _, .cond hc ha hb => by
    refine .bind .freshLabel fun _ _ hthen => .bind .freshLabel fun _ _ hdone => ?_
    exact .bind hc.lower fun _ _ hc => .bind hb.lower fun _ _ hb => .bind ha.lower fun _ _ ha =>
      .pure (by rw [hthen, hdone, ha, hb, hc])
  | _, _, .print he => .bind he.lower fun _ _ he => .pure (by rw [he])
  | _, _, .id _ hr => .bind (.decoration hr) fun _ _ hr => .pure hr.slotOf
  | _, _, .call _ hes hr => .bind (.decoration hr) fun _ _ hr => .bind (Expr.Renamed.lowerReversed hes) fun _ _ hes =>
    .pure (by rw [hes, hr.frameOf, hr.entry.isMethod, hr.entry.offset])
  | _, _, .new _ hes hr => .bind (.decoration hr) fun _ _ hr => .bind (Expr.Renamed.lowerAll hes) fun _ _ hcode =>
    .pure (by rw [hcode, hes.length_eq, hr.entry.offset])
  | _, _, .methodCall he _ hes hb => .bind (.decoration hb) fun _ _ hb =>
    .bind (Expr.Renamed.lowerReversed hes) fun _ _ hes => .bind he.lower fun _ _ he =>
      .pure (by rw [hes, he, hb.offset])

theorem Expr.Renamed.lowerAll : ∀ {es es' : List Expr}, List.Forall₂ (Expr.Renamed ρ) es es' →
    Follows (· = ·) (Expr.lowerAll es) (Expr.lowerAll es')
  | _, _, .nil => .pure rfl
  | _, _, .cons he hes => .bind he.lower fun _ _ he => .bind (Expr.Renamed.lowerAll hes) fun _ _ hes =>
    .pure (by rw [he, hes])

theorem Expr.Renamed.lowerReversed : ∀ {es es' : List Expr}, List.Forall₂ (Expr.Renamed ρ) es es' →
    Follows (· = ·) (Expr.lowerReversed es) (Expr.lowerReversed es')
  | _, _, .nil => .pure rfl
  | _, _, .cons he hes => .bind (Expr.Renamed.lowerReversed hes) fun _ _ hes => .bind he.lower fun _ _ he =>
    .pure (by rw [he, hes])

end

/-! ## Declarations, classes and programs -/

mutual

theorem Decl.Renamed.lower : ∀ {d d' : Decl}, d.Renamed ρ d' → Follows (· = ·) d.lower d'.lower
  | _, _, .var _ _ he => he.lower
  | _, _, .function hh hds he => by
    refine .bind (Decl.Renamed.lowerAll hds) fun _ _ hlocals => .bind .freshRoutineLabel fun label label' hlabel => ?_
    subst hlabel
    refine .bind he.lower fun _ _ hcode => ?_
    rw [hlocals, hcode, hh.params.length_eq, hds.length_eq]
    exact .bind (.putCode _) fun _ _ _ => .pure rfl

theorem Decl.Renamed.lowerAll : ∀ {ds ds' : List Decl}, List.Forall₂ (Decl.Renamed ρ) ds ds' →
    Follows (· = ·) (Decl.lowerAll ds) (Decl.lowerAll ds')
  | _, _, .nil => .pure rfl
  | _, _, .cons hd hds => .bind hd.lower fun _ _ hd => .bind (Decl.Renamed.lowerAll hds) fun _ _ hds =>
    .pure (by rw [hd, hds])

end

theorem Method.Renamed.lower {m m' : Method} (h : m.Renamed ρ m') : Follows (· = ·) m.lower m'.lower := by
  refine .bind .freshRoutineLabel fun label label' hlabel => ?_
  subst hlabel
  refine .bind (Decl.Renamed.lowerAll h.locals) fun _ _ hlocals => .bind h.body.lower fun _ _ hcode => ?_
  rw [hlocals, hcode, h.header.params.length_eq, h.locals.length_eq]
  exact .bind (.putCode _) fun _ _ _ => .pure rfl

namespace ClassDecl.Renamed

theorem lowerMethods {x x' : String} {ms ms' : List Method} (h : List.Forall₂ (Method.Renamed ρ) ms ms') :
    Follows (· = ·) (ClassDecl.lowerMethods x ms) (ClassDecl.lowerMethods x' ms') := by
  induction h with
  | nil => exact .pure rfl
  | @cons m m' _ _ hm _ ih =>
    have hslot : Option.Rel (· = ·) m.slot m'.slot := by
      rw [hm.slot]
      cases m'.slot with
      | none => exact .none
      | some _ => exact .some rfl
    refine .bind (.decoration hslot) fun _ _ hslot => .bind hm.lower fun label label' hlabel => ?_
    subst hlabel
    -- Class and name go into the record of labels, which the two buffers need not share.
    exact .bind (.recordMethodLabel _ _ _ _ _) fun _ _ _ => .bind ih fun _ _ hms => .pure (by rw [hslot, hms])

theorem lower {c c' : ClassDecl} (h : c.Renamed ρ c') : Follows (· = ·) c.lower c'.lower :=
  .bind (lowerMethods h.methods) fun _ _ hslots => .pure (by rw [hslots])

theorem lowerAll {cs cs' : List ClassDecl} (h : List.Forall₂ (ClassDecl.Renamed ρ) cs cs') :
    Follows (· = ·) (ClassDecl.lowerAll cs) (ClassDecl.lowerAll cs') := by
  induction h with
  | nil => exact .pure rfl
  | cons hc _ ih => exact .bind (lower hc) fun _ _ hc => .bind ih fun _ _ hcs => .pure (by rw [hc, hcs])

end ClassDecl.Renamed

/-- What a program is lowered to, its renamed form is lowered to. -/
theorem Program.Renamed.lower {p p' : Program} {code : List Instruction} (h : p.Renamed ρ p')
    (hp : p.lower = .ok code) :
    p'.lower = .ok code := by
  have hmain : Follows (· = ·) p.lowerMain p'.lowerMain := by
    cases h with
    | letIn hcs hds he =>
      exact .bind (ClassDecl.Renamed.lowerAll hcs) fun _ _ hcs => .bind (Decl.Renamed.lowerAll hds) fun _ _ hds =>
        .bind he.lower fun _ _ he => .pure (by rw [hcs, hds, he])
    | expr he => exact .bind he.lower fun _ _ he => .pure (by rw [he])
  have hparts : Follows (· = ·) p.lowerParts p'.lowerParts :=
    .bind hmain fun _ _ hmain => .bind .takeCode fun _ _ hrest => .pure (by rw [hmain, hrest])
  unfold Program.lower at hp ⊢
  cases hrun : p.lowerParts.run .empty with
  | error d c =>
    rw [hrun] at hp
    cases hp
  | ok code' c =>
    rw [hrun] at hp
    cases hp
    obtain ⟨_, c', hrun', rfl, -⟩ := hparts .empty .empty code c ⟨rfl, rfl, rfl⟩ hrun
    rw [hrun']

end FoolLang
