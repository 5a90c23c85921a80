/-
The order of types: it is transitive, and what has a common supertype is comparable. So the comparisons of types
that typing makes in both directions find a common supertype where there is one, and the least.
-/
import FoolLang.Proofs.Static.Judgement

namespace FoolLang

variable {s t u : Ty} {l : Nat}

namespace Ty

theorem subtype_iff : s.subtype t = true ↔ s = t ∨ (s = .bool ∧ t = .int) ∨ (s = .null ∧ ∃ c, t = .ref c) := by
  cases s <;> cases t <;> simp [subtype]

theorem subtype_trans (hst : s.subtype t = true) (htu : t.subtype u = true) : s.subtype u = true := by
  rw [subtype_iff] at hst
  rcases hst with rfl | ⟨rfl, rfl⟩ | ⟨rfl, c, rfl⟩
  · exact htu
  · cases u <;> first | rfl | cases of_decide_eq_true htu
  · cases u <;> first | rfl | cases of_decide_eq_true htu

theorem subtype_antisymm (hst : s.subtype t = true) (hts : t.subtype s = true) : s = t := by
  rw [subtype_iff] at hst hts
  rcases hst with rfl | ⟨rfl, rfl⟩ | ⟨rfl, c, rfl⟩
  · rfl
  · rcases hts with h | ⟨h, -⟩ | ⟨h, -⟩ <;> cases h
  · rcases hts with h | ⟨h, -⟩ | ⟨h, -⟩ <;> cases h

/-- Types with a common supertype are comparable. -/
theorem subtype_or_subtype (hs : s.subtype u = true) (ht : t.subtype u = true) :
    s.subtype t = true ∨ t.subtype s = true := by
  rw [subtype_iff] at hs ht
  rcases hs with rfl | ⟨rfl, rfl⟩ | ⟨rfl, c, rfl⟩
  · exact .inr (subtype_iff.mpr ht)
  · rcases ht with rfl | ⟨rfl, -⟩ | ⟨-, c, hc⟩
    · exact .inl rfl
    · exact .inl (subtype_refl _)
    · cases hc
  · rcases ht with rfl | ⟨-, hc⟩ | ⟨rfl, -⟩
    · exact .inl rfl
    · cases hc
    · exact .inl (subtype_refl _)

theorem eq_bool (h : s.subtype .bool = true) : s = .bool := by
  cases s <;> exact of_decide_eq_true h

/-! ## Branches -/

theorem join_subtype (h : s.join u l = .ok t) : s.subtype t = true ∧ u.subtype t = true := by
  unfold Ty.join at h
  split at h
  · rename_i hsu
    cases h
    exact ⟨hsu, subtype_refl _⟩
  · split at h
    · rename_i hus
      cases h
      exact ⟨subtype_refl _, hus⟩
    · cases h

/-- Branches with a common supertype have a least one. -/
theorem join_of_subtype (hs : s.subtype t = true) (hu : u.subtype t = true) :
    ∃ j, s.join u l = .ok j ∧ j.subtype t = true := by
  unfold Ty.join
  by_cases hsu : s.subtype u = true
  · exact ⟨u, if_pos hsu, hu⟩
  · have hus := (subtype_or_subtype hs hu).resolve_left hsu
    exact ⟨s, (if_neg hsu).trans (if_pos hus), hs⟩

end Ty

/-! ## Operators -/

namespace Typed

variable {α : Type} {holds : Bool} {cause : Cause} {a b : α}

theorem ensure_iff {x : Unit} : Typed.ensure holds cause l = .ok x ↔ holds = true :=
  ⟨Typed.ensure_eq_ok, fun h => by rw [h]; rfl⟩

/-- What is given behind a condition. -/
theorem ensure_return_iff : (Typed.ensure holds cause l >>= fun _ => pure a : Typed α) = .ok b ↔
    holds = true ∧ b = a := by
  constructor
  · intro h
    obtain ⟨_, hensure, h⟩ := Sequencing.except_bind_ok h
    cases h
    exact ⟨ensure_iff.mp hensure, rfl⟩
  · rintro ⟨rfl, rfl⟩
    rfl

end Typed

namespace BinaryOp

variable {op : BinaryOp}

/-- Operators on integers. -/
def OnIntegers (op : BinaryOp) : Prop := op = .plus ∨ op = .minus ∨ op = .times ∨ op = .div

/-- Operators that compare. -/
def Compares (op : BinaryOp) : Prop := op = .equal ∨ op = .lessEqual ∨ op = .greaterEqual

/-- Operators on truth values. -/
def OnTruths (op : BinaryOp) : Prop := op = .and ∨ op = .or

theorem kinds (op : BinaryOp) : op.OnIntegers ∨ op.Compares ∨ op.OnTruths := by
  unfold OnIntegers Compares OnTruths
  cases op <;> simp

theorem OnIntegers.resultType_iff (hop : op.OnIntegers) :
    op.resultType s u l = .ok t ↔ (s.subtype .int = true ∧ u.subtype .int = true) ∧ t = .int := by
  rw [← Bool.and_eq_true_iff]
  rcases hop with rfl | rfl | rfl | rfl <;> exact Typed.ensure_return_iff

theorem Compares.resultType_iff (hop : op.Compares) :
    op.resultType s u l = .ok t ↔ (s.subtype u = true ∨ u.subtype s = true) ∧ t = .bool := by
  rw [← Bool.or_eq_true_iff]
  rcases hop with rfl | rfl | rfl <;> exact Typed.ensure_return_iff

theorem OnTruths.resultType_iff (hop : op.OnTruths) :
    op.resultType s u l = .ok t ↔ (s.subtype .bool = true ∧ u.subtype .bool = true) ∧ t = .bool := by
  rw [← Bool.and_eq_true_iff]
  rcases hop with rfl | rfl <;> exact Typed.ensure_return_iff

end BinaryOp

end FoolLang
