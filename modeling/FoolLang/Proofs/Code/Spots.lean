/-
Where the expressions of a program begin: those inside an expression within its code, those of a routine
within the routine, and no two routines overlap.
-/
import FoolLang.Proofs.Code.Layout

namespace FoolLang

open Machine

/-! ## Expressions -/

theorem Code.slotOf_pos (r : Resolution) : 0 < (slotOf r).length := by
  unfold slotOf
  split <;> simp only [List.length_append, List.length_cons] <;> omega

theorem Code.callOf_pos (r : Resolution) : 0 < (callOf r).length := by
  simp only [callOf, callSlot, List.length_append, List.length_cons]
  omega

theorem Code.epilogue_pos (params locals : Nat) : 0 < (epilogue params locals).length := by
  simp only [epilogue, List.length_append, List.length_cons]
  omega

theorem Code.object_pos (n : Nat) (offset : Int32) : 0 < (object n offset).length := by
  simp only [object, List.length_append, List.length_singleton]
  omega

mutual

theorem Expr.size_pos : ∀ e : Expr, 0 < e.size
  | .int _ _ | .bool _ _ | .null _ => Nat.one_pos
  | .binary op x y _ => by
    have hx := x.size_pos
    cases op <;> simp only [Expr.size] <;> omega
  | .not e _ => by simp only [Expr.size]; omega
  | .cond c x y _ => by simp only [Expr.size]; omega
  | .print e _ => by simp only [Expr.size]; omega
  | .id _ none _ => Nat.one_pos
  | .id _ (some r) _ => Code.slotOf_pos r
  | .call _ args r _ => by simp only [Expr.size]; omega
  | .new _ args none _ => by simp [Expr.size]
  | .new _ args (some r) _ => by
    have hpos := Code.object_pos args.length r.entry.offset
    simp only [Expr.size, Option.elim_some]
    omega
  | .methodCall receiver _ args b _ => by simp only [Expr.size]; omega

end

/-- Some expressions begin in a piece of code. -/
def Within (a b : Nat) (l : List Spot) : Prop := ∀ spot ∈ l, a ≤ spot.start ∧ spot.start < b

namespace Within

variable {a b a' b' : Nat} {l l' : List Spot} {spot : Spot}

theorem nil : Within a b [] := fun _ h => by cases h

theorem append (h : Within a b l) (h' : Within a b l') : Within a b (l ++ l') := by
  intro spot hspot
  rcases List.mem_append.mp hspot with hspot | hspot
  · exact h spot hspot
  · exact h' spot hspot

/-- An expression begins within its own code. -/
theorem here {e : Expr} (h : Within a (a + e.size) l) : Within a (a + e.size) (⟨e, a⟩ :: l) := by
  have hpos := e.size_pos
  intro spot hspot
  rcases List.mem_cons.mp hspot with rfl | hspot
  · exact ⟨Nat.le_refl a, show a < a + e.size by omega⟩
  · exact h spot hspot

theorem mono (h : Within a' b' l) (ha : a ≤ a') (hb : b' ≤ b) : Within a b l := by
  intro spot hspot
  obtain ⟨hlow, hhigh⟩ := h spot hspot
  exact ⟨by omega, by omega⟩

end Within

/-- Whether the right operand of an operator is evaluated only where the left one does not settle the value. -/
def BinaryOp.isShort : BinaryOp → Bool
  | .and | .or => true
  | _ => false

/-- The value of the left operand of a short operator that settles the value of both. -/
def BinaryOp.settled : BinaryOp → Int32
  | .and => 0
  | _ => 1

/-- The value of a short operator where no operand settles it. -/
def BinaryOp.unsettled : BinaryOp → Int32
  | .and => 1
  | _ => 0

section

variable {op : BinaryOp} (x y : Expr) (l a : Nat)

theorem Expr.size_short (h : op.isShort = true) : (Expr.binary op x y l).size = x.size + 2 + y.size + 5 := by
  cases op <;> first | rfl | contradiction

theorem Expr.spots_short (h : op.isShort = true) : (Expr.binary op x y l).spots a =
    ⟨.binary op x y l, a⟩ :: (x.spots a ++ y.spots (a + x.size + 2)) := by
  cases op <;> first | rfl | contradiction

theorem Expr.laid_short (h : op.isShort = true) (code : Array Op) : (Expr.binary op x y l).Laid code a ↔
    x.Laid code a ∧
      Stands code (a + x.size) [.push op.settled, .jump .ifEqual (a + x.size + 2 + y.size + 4)] ∧
      y.Laid code (a + x.size + 2) ∧ Stands code (a + x.size + 2 + y.size)
        [.push op.settled, .jump .ifEqual (a + x.size + 2 + y.size + 4), .push op.unsettled,
          .jump .always (a + x.size + 2 + y.size + 5), .push op.settled] := by
  cases op <;> first | rfl | contradiction

theorem Expr.evaluate_short (h : op.isShort = true) (classes : List ClassDecl) (call : Evaluating.Calling)
    (ρ : Env) (σ : Store) :
    (Expr.binary op x y l).evaluate classes call ρ σ = (x.evaluate classes call ρ σ >>= fun q =>
      if q.1 = op.settled then pure (op.settled, q.2) else y.evaluate classes call ρ q.2) := by
  cases op with
  | and =>
    refine congrArg (x.evaluate classes call ρ σ >>= ·) (funext fun q => ?_)
    show (if q.1 = 0 then pure 0 else y.evaluate classes call ρ : Evaluating Int32) q.2 = _
    by_cases hq : q.1 = 0
    · rw [if_pos hq, if_pos (show q.1 = BinaryOp.and.settled from hq)]
      rfl
    · rw [if_neg hq, if_neg (show q.1 ≠ BinaryOp.and.settled from hq)]
  | or =>
    refine congrArg (x.evaluate classes call ρ σ >>= ·) (funext fun q => ?_)
    show (if q.1 = 1 then pure 1 else y.evaluate classes call ρ : Evaluating Int32) q.2 = _
    by_cases hq : q.1 = 1
    · rw [if_pos hq, if_pos (show q.1 = BinaryOp.or.settled from hq)]
      rfl
    · rw [if_neg hq, if_neg (show q.1 ≠ BinaryOp.or.settled from hq)]
  | _ => cases h

theorem Expr.size_strict (h : op.isShort = false) :
    (Expr.binary op x y l).size = x.size + y.size + (op.tail 0).length := by
  cases op <;> first | rfl | contradiction

theorem Expr.spots_strict (h : op.isShort = false) :
    (Expr.binary op x y l).spots a = ⟨.binary op x y l, a⟩ :: (x.spots a ++ y.spots (a + x.size)) := by
  cases op <;> first | rfl | contradiction

theorem Expr.laid_strict (h : op.isShort = false) (code : Array Op) : (Expr.binary op x y l).Laid code a ↔
    x.Laid code a ∧ y.Laid code (a + x.size) ∧
      Stands code (a + x.size + y.size) (op.tail (a + x.size + y.size)) := by
  cases op <;> first | rfl | contradiction

theorem Expr.evaluate_strict (h : op.isShort = false) (classes : List ClassDecl) (call : Evaluating.Calling)
    (ρ : Env) (σ : Store) :
    (Expr.binary op x y l).evaluate classes call ρ σ = (x.evaluate classes call ρ σ >>= fun q =>
      y.evaluate classes call ρ q.2 >>= fun r => op.apply q.1 r.1 r.2) := by
  cases op <;> first | rfl | contradiction

end

mutual

/-- The expressions in an expression begin within its code. -/
theorem Expr.spots_within : ∀ (e : Expr) (a : Nat), Within a (a + e.size) (e.spots a)
  | .int _ _, a | .bool _ _, a | .null _, a | .id _ _ _, a => .here .nil
  | .binary op x y l, a => by
    have hx := x.spots_within a
    cases hop : op.isShort with
    | true =>
      have hsize := Expr.size_short x y l hop
      have hy := y.spots_within (a + x.size + 2)
      rw [Expr.spots_short x y l a hop]
      refine .here ((hx.mono ?_ ?_).append (hy.mono ?_ ?_)) <;> omega
    | false =>
      have hsize := Expr.size_strict x y l hop
      have hy := y.spots_within (a + x.size)
      rw [Expr.spots_strict x y l a hop]
      refine .here ((hx.mono ?_ ?_).append (hy.mono ?_ ?_)) <;> omega
  | .not e l, a => by
    have hsize : (Expr.not e l).size = 1 + e.size + 1 := rfl
    have he := e.spots_within (a + 1)
    refine .here (he.mono ?_ ?_) <;> omega
  | .cond c x y l, a => by
    have hsize : (Expr.cond c x y l).size = c.size + 2 + y.size + 1 + x.size := rfl
    have hc := c.spots_within a
    have hy := y.spots_within (a + c.size + 2)
    have hx := x.spots_within (a + c.size + 2 + y.size + 1)
    refine .here (((hc.mono ?_ ?_).append (hy.mono ?_ ?_)).append (hx.mono ?_ ?_)) <;> omega
  | .print e l, a => by
    have hsize : (Expr.print e l).size = e.size + 1 := rfl
    have he := e.spots_within a
    refine .here (he.mono ?_ ?_) <;> omega
  | .call name args r l, a => by
    have hsize : (Expr.call name args r l).size = 1 + Expr.sizeAll args + (r.elim [] Code.callOf).length := rfl
    have hargs := Expr.spotsReversed_within args (a + 1)
    refine .here (hargs.mono ?_ ?_) <;> omega
  | .new c args r l, a => by
    have hsize : Expr.sizeAll args ≤ (Expr.new c args r l).size := Nat.le_add_right _ _
    have hargs := Expr.spotsAll_within args a
    refine .here (hargs.mono ?_ ?_) <;> omega
  | .methodCall receiver method args b l, a => by
    have hsize : 1 + Expr.sizeAll args + receiver.size ≤ (Expr.methodCall receiver method args b l).size :=
      Nat.le_add_right _ _
    have hargs := Expr.spotsReversed_within args (a + 1)
    have hreceiver := receiver.spots_within (a + 1 + Expr.sizeAll args)
    refine .here ((hargs.mono ?_ ?_).append (hreceiver.mono ?_ ?_)) <;> omega

theorem Expr.spotsAll_within : ∀ (es : List Expr) (a : Nat), Within a (a + Expr.sizeAll es) (Expr.spotsAll a es)
  | [], a => .nil
  | e :: es, a => by
    have he := (e.spots_within a)
    have hes := Expr.spotsAll_within es (a + e.size)
    simp only [Expr.spotsAll, Expr.sizeAll]
    exact (he.mono (by omega) (by omega)).append (hes.mono (by omega) (by omega))

theorem Expr.spotsReversed_within : ∀ (es : List Expr) (a : Nat),
    Within a (a + Expr.sizeAll es) (Expr.spotsReversed a es)
  | [], a => .nil
  | e :: es, a => by
    have hes := Expr.spotsReversed_within es a
    have he := e.spots_within (a + Expr.sizeAll es)
    simp only [Expr.spotsReversed, Expr.sizeAll]
    exact (hes.mono (by omega) (by omega)).append (he.mono (by omega) (by omega))

end

/-- The expressions in some code that belong to others: those that begin in it are all listed. -/
def Covers (W l : List Spot) (a b : Nat) : Prop :=
  ∀ spot ∈ W, a ≤ spot.start → spot.start < b → spot ∈ l

namespace Covers

variable {W l l' before behind : List Spot} {a b a' b' c d : Nat}

theorem part (h : Covers W l a b) (ha : a ≤ a') (hb : b' ≤ b)
    (hl : ∀ spot ∈ l, a' ≤ spot.start → spot.start < b' → spot ∈ l') : Covers W l' a' b' :=
  fun spot hspot hlow hhigh => hl spot (h spot hspot (by omega) (by omega)) hlow hhigh

theorem mono (h : Covers W l a b) (ha : a ≤ a') (hb : b' ≤ b) : Covers W l a' b' :=
  h.part ha hb fun _ hspot _ _ => hspot

/-- In no code, no expression begins. -/
theorem empty (hb : b ≤ a) : Covers W l a b := fun _ _ hlow hhigh => by omega

/-- Of the expressions in two pieces of code, those in the first one are its own. -/
theorem front (h : Covers W (l ++ behind) a b) (hbehind : Within b' d behind) (ha : a ≤ a') (hb : b' ≤ b) :
    Covers W l a' b' := by
  refine h.part ha hb fun spot hspot _ hhigh => ?_
  rcases List.mem_append.mp hspot with hspot | hspot
  · exact hspot
  · have hstart := hbehind spot hspot
    omega

/-- Of the expressions in two pieces of code, those in the second one are its own. -/
theorem back (h : Covers W (before ++ l) a b) (hbefore : Within c a' before) (ha : a ≤ a') (hb : b' ≤ b) :
    Covers W l a' b' := by
  refine h.part ha hb fun spot hspot hlow _ => ?_
  rcases List.mem_append.mp hspot with hspot | hspot
  · have hstart := hbefore spot hspot
    omega
  · exact hspot

/-- Between two pieces of code, no expression begins. -/
theorem gap (h : Covers W (before ++ behind) a b) (hbefore : Within c a' before) (hbehind : Within b' d behind)
    (ha : a ≤ a') (hb : b' ≤ b) : Covers W [] a' b' := by
  have hback := h.back hbefore ha hb
  rw [← List.nil_append behind] at hback
  exact hback.front hbehind (Nat.le_refl _) (Nat.le_refl _)

/-- Behind a piece of code, no expression begins. -/
theorem rest (h : Covers W l a b) (hl : Within c a' l) (ha : a ≤ a') (hb : b' ≤ b) : Covers W [] a' b' := by
  rw [← List.append_nil l] at h
  exact h.back hl ha hb

end Covers

/-! ## Routines -/

theorem Decl.spotsAll_within : ∀ (ds : List Decl) (a : Nat), Within a (a + Decl.sizeAll ds) (Decl.spotsAll a ds)
  | [], a => .nil
  | .var x type value l :: ds, a => by
    have hvalue := value.spots_within a
    have hds := Decl.spotsAll_within ds (a + value.size)
    have hsize : Decl.sizeAll (.var x type value l :: ds) = value.size + Decl.sizeAll ds := rfl
    exact (hvalue.mono (by omega) (by omega)).append (hds.mono (by omega) (by omega))
  | .function header locals body :: ds, a => by
    have hds := Decl.spotsAll_within ds (a + 1)
    have hsize : Decl.sizeAll (.function header locals body :: ds) = 1 + Decl.sizeAll ds := rfl
    exact hds.mono (by omega) (by omega)

theorem Routine.spots_within_body (r : Routine) (a : Nat) : Within a (a + r.bodySize) (r.spots a) := by
  have hlocals := Decl.spotsAll_within r.locals (a + 2)
  have hbody := r.body.spots_within (a + 2 + Decl.sizeAll r.locals)
  have hsize : r.bodySize = 2 + Decl.sizeAll r.locals + r.body.size := rfl
  exact (hlocals.mono (by omega) (by omega)).append (hbody.mono (by omega) (by omega))

theorem Routine.spots_within (r : Routine) (a : Nat) : Within a (a + r.size) (r.spots a) := by
  have hsize : r.bodySize ≤ r.size := Nat.le_add_right _ _
  exact (r.spots_within_body a).mono (Nat.le_refl a) (by omega)

theorem Routine.size_pos (r : Routine) : 0 < r.size := by
  have hsize : 2 + Decl.sizeAll r.locals + r.body.size ≤ r.size := Nat.le_add_right _ _
  omega

theorem Routine.place_ge (rs : List Routine) : ∀ a, ∀ x ∈ Routine.place a rs, a ≤ x.1 := by
  induction rs with
  | nil => exact fun _ _ hx => (List.not_mem_nil hx).elim
  | cons r rs ih =>
    intro a x hx
    rcases List.mem_cons.mp hx with rfl | hx
    · exact Nat.le_refl _
    · have hle := ih (a + r.size) x hx
      omega

/-- Two routines are the same where their code overlaps. -/
theorem Routine.place_unique (rs : List Routine) : ∀ a, ∀ x ∈ Routine.place a rs, ∀ y ∈ Routine.place a rs,
    ∀ k, x.1 ≤ k → k < x.1 + x.2.size → y.1 ≤ k → k < y.1 + y.2.size → x = y := by
  induction rs with
  | nil => exact fun _ _ hx => (List.not_mem_nil hx).elim
  | cons r rs ih =>
    intro a x hx y hy k hk hk' hk'' hk'''
    rcases List.mem_cons.mp hx with rfl | hx <;> rcases List.mem_cons.mp hy with rfl | hy
    · rfl
    · have hle := Routine.place_ge rs (a + r.size) y hy
      simp only at hk'
      omega
    · have hle := Routine.place_ge rs (a + r.size) x hx
      simp only at hk'''
      omega
    · exact ih _ x hx y hy k hk hk' hk'' hk'''

/-! ## Programs -/

namespace Program

variable (p : Program)

/-- The expressions in the main code of a program. -/
def mainSpots : List Spot := Decl.spotsAll p.declsStart p.decls ++ p.body.spots p.bodyStart

theorem mainSpots_within : Within p.declsStart p.mainSize p.mainSpots := by
  have hdecls := Decl.spotsAll_within p.decls p.declsStart
  have hbody := p.body.spots_within p.bodyStart
  have hstart : p.bodyStart = p.declsStart + Decl.sizeAll p.decls := rfl
  have hsize : p.mainSize = p.bodyStart + p.body.size + 1 := rfl
  exact (hdecls.mono (by omega) (by omega)).append (hbody.mono (by omega) (by omega))

theorem covers_main : Covers p.spots p.mainSpots 0 p.mainSize := by
  intro spot hspot _ hhigh
  rcases List.mem_append.mp hspot with hspot | hspot
  · exact hspot
  · obtain ⟨x, hx, hspot⟩ := List.mem_flatMap.mp hspot
    have hplace := Routine.place_ge p.routines p.mainSize x hx
    have hstart := x.2.spots_within x.1 spot hspot
    omega

theorem covers_routine {x : Nat × Routine} (hx : x ∈ p.placed) :
    Covers p.spots (x.2.spots x.1) x.1 (x.1 + x.2.size) := by
  intro spot hspot hlow hhigh
  have hplace := Routine.place_ge p.routines p.mainSize x hx
  rcases List.mem_append.mp hspot with hspot | hspot
  · have hstart := p.mainSpots_within spot hspot
    omega
  · obtain ⟨y, hy, hspot⟩ := List.mem_flatMap.mp hspot
    have hstart := y.2.spots_within y.1 spot hspot
    have heq := Routine.place_unique p.routines p.mainSize x hx y hy spot.start hlow hhigh hstart.1 hstart.2
    rw [heq]
    exact hspot

end Program

end FoolLang
