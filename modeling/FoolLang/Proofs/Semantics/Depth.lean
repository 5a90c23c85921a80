/-
The depth to which calls may be nested bounds evaluations and decides nothing else: an evaluation that has
not used its depth up ends in the same way with every larger depth.
-/
import FoolLang.Proofs.Semantics.Evaluation

namespace FoolLang

/-- The first of two evaluations ends as the second one does, unless it has used its depth up. -/
def Evaluating.Below {α : Type} (x y : Evaluating α) : Prop := ∀ σ, x σ = .error .exhausted ∨ x σ = y σ

namespace Evaluating.Below

variable {α β : Type} {x y : Evaluating α} {f g : α → Evaluating β}

theorem refl (x : Evaluating α) : Below x x := fun _ => .inr rfl

theorem exhausted (x : Evaluating α) : Below (throw .exhausted) x := fun _ => .inl rfl

theorem bind (h : Below x y) (hf : ∀ a, Below (f a) (g a)) : Below (x >>= f) (y >>= g) := by
  intro σ
  have hbind : ∀ (z : Evaluating α) (k : α → Evaluating β), (z >>= k) σ = z σ >>= fun q => k q.1 q.2 := fun _ _ => rfl
  rw [hbind, hbind]
  rcases h σ with hx | hx
  · rw [hx]
    exact .inl rfl
  · rw [hx]
    cases y σ with
    | error e => exact .inr rfl
    | ok q => exact hf q.1 q.2

end Evaluating.Below

open Evaluating (Below)

/-- One way of running routines is below another one, whatever routine is run. -/
def Evaluating.CallsBelow (call call' : Evaluating.Calling) : Prop := ∀ r ρ vs, Below (call r ρ vs) (call' r ρ vs)

section

variable {classes : List ClassDecl} {call call' : Evaluating.Calling}

theorem Evaluating.send_below (h : Evaluating.CallsBelow call call') (this : Int32) (method : String)
    (vs : List Int32) :
    Below (send call this method vs) (send call' this method vs) := by
  refine .bind (.refl _) fun σ => ?_
  split
  · exact .refl _
  · split
    · exact .refl _
    · exact h _ _ _

mutual

theorem Expr.evaluate_below (h : Evaluating.CallsBelow call call') (ρ : Env) : ∀ e : Expr,
    Below (e.evaluate classes call ρ) (e.evaluate classes call' ρ)
  | .int _ _ | .bool _ _ | .null _ | .id _ _ _ => .refl _
  | .binary op a b _ => by
    have ha := a.evaluate_below h ρ
    have hb := b.evaluate_below h ρ
    cases op with
    | and | or =>
      refine .bind ha fun x => ?_
      split
      · exact .refl _
      · exact hb
    | plus | minus | times | div | equal | lessEqual | greaterEqual =>
      exact .bind ha fun x => .bind hb fun y => .refl _
  | .not e _ => .bind (e.evaluate_below h ρ) fun _ => .refl _
  | .cond c a b _ => by
    refine .bind (c.evaluate_below h ρ) fun x => ?_
    split
    · exact a.evaluate_below h ρ
    · exact b.evaluate_below h ρ
  | .print e _ => .bind (e.evaluate_below h ρ) fun _ => .refl _
  | .call name args _ _ => by
    refine .bind (Expr.evaluateReversed_below h ρ args) fun vs => ?_
    split
    · exact h _ _ _
    · exact Evaluating.send_below h _ _ _
    · exact .refl _
  | .new _ args _ _ => .bind (Expr.evaluateAll_below h ρ args) fun _ => .refl _
  | .methodCall receiver method args _ _ => by
    refine .bind (Expr.evaluateReversed_below h ρ args) fun vs => .bind (receiver.evaluate_below h ρ) fun this => ?_
    split
    · exact .refl _
    · exact Evaluating.send_below h _ _ _

theorem Expr.evaluateAll_below (h : Evaluating.CallsBelow call call') (ρ : Env) : ∀ es : List Expr,
    Below (Expr.evaluateAll classes call ρ es) (Expr.evaluateAll classes call' ρ es)
  | [] => .refl _
  | e :: es => .bind (e.evaluate_below h ρ) fun _ => .bind (Expr.evaluateAll_below h ρ es) fun _ => .refl _

theorem Expr.evaluateReversed_below (h : Evaluating.CallsBelow call call') (ρ : Env) : ∀ es : List Expr,
    Below (Expr.evaluateReversed classes call ρ es) (Expr.evaluateReversed classes call' ρ es)
  | [] => .refl _
  | e :: es => .bind (Expr.evaluateReversed_below h ρ es) fun _ => .bind (e.evaluate_below h ρ) fun _ => .refl _

end

theorem Decl.evaluateAll_below (h : Evaluating.CallsBelow call call') : ∀ (ds : List Decl) (ρ : Env),
    Below (Decl.evaluateAll classes call ρ ds) (Decl.evaluateAll classes call' ρ ds)
  | [], _ => .refl _
  | .var _ _ value _ :: ds, ρ => .bind (value.evaluate_below h ρ) fun _ => Decl.evaluateAll_below h ds _
  | .function _ _ _ :: ds, _ => Decl.evaluateAll_below h ds _

theorem Routine.evaluate_below (h : Evaluating.CallsBelow call call') (r : Routine) (ρ : Env) (vs : List Int32) :
    Below (r.evaluate classes call ρ vs) (r.evaluate classes call' ρ vs) :=
  .bind (Decl.evaluateAll_below h _ _) fun ρ' => r.body.evaluate_below h ρ'

end

/-- A routine that has not used its depth up does the same with every larger depth. -/
theorem Routine.run_below (classes : List ClassDecl) : ∀ {n m : Nat}, n ≤ m →
    Evaluating.CallsBelow (Routine.run classes n) (Routine.run classes m)
  | 0, _, _ => fun _ _ _ => .exhausted _
  | _ + 1, _ + 1, hnm => fun r ρ vs => r.evaluate_below (Routine.run_below classes (Nat.le_of_succ_le_succ hnm)) ρ vs

namespace Program

variable {p : Program} {n m : Nat}

/-- An evaluation that has not used its depth up ends in the same way with every larger depth. -/
theorem evaluate_deeper (h : p.evaluate n ≠ .error .exhausted) (hnm : n ≤ m) : p.evaluate m = p.evaluate n := by
  have hbelow : Below (Decl.evaluateAll p.classes (Routine.run p.classes n) [[]] p.decls >>= fun ρ =>
        p.body.evaluate p.classes (Routine.run p.classes n) ρ)
      (Decl.evaluateAll p.classes (Routine.run p.classes m) [[]] p.decls >>= fun ρ =>
        p.body.evaluate p.classes (Routine.run p.classes m) ρ) :=
    .bind (Decl.evaluateAll_below (Routine.run_below p.classes hnm) _ _) fun ρ =>
      p.body.evaluate_below (Routine.run_below p.classes hnm) ρ
  unfold evaluate at h ⊢
  rcases hbelow ⟨p.methodCount, [], []⟩ with hx | hx
  · exact absurd (congrArg (· >>= fun q : Int32 × Store => pure (q.1, q.2.output)) hx) h
  · exact (congrArg (· >>= fun q : Int32 × Store => pure (q.1, q.2.output)) hx).symm

/-- However deep calls may be nested, an evaluation that ends does so in one way. -/
theorem evaluate_unique (h : p.evaluate n ≠ .error .exhausted) (h' : p.evaluate m ≠ .error .exhausted) :
    p.evaluate n = p.evaluate m := by
  rcases Nat.le_total n m with hle | hle
  · exact (evaluate_deeper h hle).symm
  · exact evaluate_deeper h' hle

end Program

end FoolLang
