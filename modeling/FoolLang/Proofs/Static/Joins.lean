/-
Types are partially ordered, and a conditional has the least upper bound of the types of its branches: it has no type
just where the branches have no supertype in common, so their order makes no difference.
-/
import FoolLang.Proofs.Static.Subtyping
import Mathlib.Order.Bounds.Basic

namespace FoolLang

variable {s t u : Ty} {l : Nat}

instance : PartialOrder Ty where
  le a b := a.subtype b = true
  le_refl := Ty.subtype_refl
  le_trans _ _ _ := Ty.subtype_trans
  le_antisymm _ _ := Ty.subtype_antisymm

namespace Ty

/-- A type is above both of two types just where it is above each. -/
theorem mem_upperBounds_pair : u ∈ upperBounds {s, t} ↔ s.subtype u = true ∧ t.subtype u = true := by
  rw [upperBounds_insert, upperBounds_singleton]
  exact Iff.rfl

/-- Branches are joined just to their least upper bound. -/
theorem join_eq_ok_iff : s.join t l = .ok u ↔ IsLUB {s, t} u := by
  constructor
  · intro h
    refine ⟨mem_upperBounds_pair.mpr (join_subtype h), fun w hw => ?_⟩
    obtain ⟨hs, ht⟩ := mem_upperBounds_pair.mp hw
    obtain ⟨j, hj, hjw⟩ := join_of_subtype (l := l) hs ht
    rw [h] at hj
    cases hj
    exact hjw
  · intro h
    obtain ⟨hs, ht⟩ := mem_upperBounds_pair.mp h.1
    obtain ⟨j, hj, hju⟩ := join_of_subtype (l := l) hs ht
    have huj : u ≤ j := h.2 (mem_upperBounds_pair.mpr (join_subtype hj))
    rw [hj, subtype_antisymm hju huj]

/-- Branches are incompatible just where no type is above both. -/
theorem join_eq_error_iff : s.join t l = .error (.problem ⟨.incompatibleBranches s.text t.text, l⟩) ↔
    ¬ ∃ w, s.subtype w = true ∧ t.subtype w = true := by
  constructor
  · rintro h ⟨w, hs, ht⟩
    obtain ⟨j, hj, -⟩ := join_of_subtype (l := l) hs ht
    rw [h] at hj
    cases hj
  · intro h
    have hst : ¬ s.subtype t = true := fun hst => h ⟨t, hst, subtype_refl t⟩
    have hts : ¬ t.subtype s = true := fun hts => h ⟨s, subtype_refl s, hts⟩
    unfold join
    rw [if_neg hst, if_neg hts]
    rfl

end Ty

/-- A conditional on a truth value has the join of the types of its branches. -/
theorem Expr.cond_type {c a b : Expr} (hc : c.type = .ok .bool) (ha : a.type = .ok s) (hb : b.type = .ok t) :
    (Expr.cond c a b l).type = s.join t l := by
  rw [Expr.type, hc, ha, hb]
  change (Typed.ensure (Ty.bool.subtype .bool) _ l >>= fun _ => s.join t l) = s.join t l
  rw [Ty.subtype_refl]
  rfl

/--
Being a subtype is a partial order in which types with a common supertype are comparable. A conditional on a truth value
has the least upper bound of the types of its branches where they have a common supertype, and reports incompatible
branches just where they have none; so it has the same type when its branches are exchanged.
-/
theorem Expr.cond_type_isLUB :
    (∀ s : Ty, s.subtype s = true) ∧
    (∀ s t u : Ty, s.subtype t = true → t.subtype u = true → s.subtype u = true) ∧
    (∀ s t : Ty, s.subtype t = true → t.subtype s = true → s = t) ∧
    (∀ s t u : Ty, s.subtype u = true → t.subtype u = true → s.subtype t = true ∨ t.subtype s = true) ∧
    ∀ (c a b : Expr) (l : Nat) (s t : Ty), c.type = .ok .bool → a.type = .ok s → b.type = .ok t →
      ((∃ w, s.subtype w = true ∧ t.subtype w = true) → ∃ u, (Expr.cond c a b l).type = .ok u ∧ IsLUB {s, t} u) ∧
      ((Expr.cond c a b l).type = .error (.problem ⟨.incompatibleBranches s.text t.text, l⟩) ↔
        ¬ ∃ w, s.subtype w = true ∧ t.subtype w = true) ∧
      ∀ u, (Expr.cond c a b l).type = .ok u ↔ (Expr.cond c b a l).type = .ok u := by
  refine ⟨Ty.subtype_refl, fun _ _ _ => Ty.subtype_trans, fun _ _ => Ty.subtype_antisymm,
    fun _ _ _ => Ty.subtype_or_subtype, fun c a b l s t hc ha hb => ?_⟩
  rw [Expr.cond_type hc ha hb, Expr.cond_type hc hb ha]
  refine ⟨?_, Ty.join_eq_error_iff, fun u => ?_⟩
  · rintro ⟨w, hs, ht⟩
    obtain ⟨j, hj, -⟩ := Ty.join_of_subtype (l := l) hs ht
    exact ⟨j, hj, Ty.join_eq_ok_iff.mp hj⟩
  · rw [Ty.join_eq_ok_iff, Ty.join_eq_ok_iff, Set.pair_comm]

/-- A null reference and an object of a class have the type of that class, in either order. -/
theorem Expr.cond_type_isLUB_null :
    let object : Expr := .id "o" (some ⟨⟨0, .ref "A", -2, false⟩, 0⟩) 1
    (∃ u, (Expr.cond (.bool true 1) (.null 1) object 1).type = .ok u ∧ IsLUB {Ty.null, .ref "A"} u) ∧
      (Expr.cond (.bool true 1) object (.null 1) 1).type = .ok (.ref "A") := by
  intro object
  have h := Expr.cond_type_isLUB.2.2.2.2 (.bool true 1) (.null 1) object 1 .null (.ref "A") rfl rfl rfl
  exact ⟨h.1 ⟨.ref "A", rfl, Ty.subtype_refl _⟩, (h.2.2 (.ref "A")).mp ((Expr.cond_type rfl rfl rfl).trans rfl)⟩

end FoolLang
