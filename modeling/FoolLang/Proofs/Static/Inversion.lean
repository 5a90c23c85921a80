/-
What the type of an expression says of those of its parts: for each form of expressions, just when it has a type
and which.
-/
import FoolLang.Proofs.Static.Subtyping
import Mathlib.Data.List.Forall2

namespace FoolLang

variable {x y c e : Expr} {es : List Expr} {s t u : Ty} {ts : List Ty} {name : String} {l : Nat}

/-- Some expressions have types that go for others. -/
def Expr.TypedAs (es : List Expr) (ts : List Ty) : Prop :=
  List.Forall₂ (fun e t => ∃ s, e.type = .ok s ∧ s.subtype t = true) es ts

/-! ## Names -/

theorem Ty.asValue_iff : s.asValue name l = .ok t ↔ s = t ∧ t.isValue = true := by
  constructor
  · intro h
    cases s with
    | arrow | cls => cases h
    | _ => cases h; exact ⟨rfl, rfl⟩
  · rintro ⟨rfl, h⟩
    cases s with
    | arrow | cls => cases h
    | _ => rfl

theorem Ty.asFunction_iff {g : Signature} : s.asFunction name l = .ok g ↔ s = .arrow g := by
  constructor
  · intro h
    cases s with
    | arrow => cases h; rfl
    | _ => cases h
  · rintro rfl
    rfl

theorem Ty.asClass_iff : s.asClass name l = .ok ts ↔ ∃ ms, s = .cls ts ms := by
  constructor
  · intro h
    cases s with
    | cls _ ms => cases h; exact ⟨ms, rfl⟩
    | _ => cases h
  · rintro ⟨ms, rfl⟩
    rfl

theorem Ty.ensureObject_iff {x : Unit} : s.ensureObject name l = .ok x ↔ ∃ c, s = .ref c := by
  constructor
  · intro h
    cases s with
    | ref c => exact ⟨c, rfl⟩
    | _ => cases h
  · rintro ⟨c, rfl⟩
    rfl

theorem Ty.result_of_returnedClass? {g : Signature} {c : String} (h : s = .arrow g) (hc : s.returnedClass? = some c) :
    g.result = .ref c := by
  subst h
  rw [Ty.returnedClass?.eq_def] at hc
  split at hc
  · rename_i hg
    cases hg
    cases hc
    rfl
  · cases hc

theorem Typed.decoration_iff {α : Type} {r : Option α} {a : α} : Typed.decoration r = .ok a ↔ r = some a := by
  cases r with
  | none => simp [Typed.decoration, throw, throwThe, MonadExceptOf.throw]
  | some b => simp [Typed.decoration, pure, Except.pure]

/-! ## Arguments -/

open Sequencing in
theorem Expr.checkArgs_iff : ∀ {ts : List Ty} {es : List Expr} {k : Nat}, ts.length = es.length →
    (Expr.checkArgs name l k ts es = .ok () ↔ Expr.TypedAs es ts)
  | [], [], _, _ => ⟨fun _ => .nil, fun _ => rfl⟩
  | t :: ts, e :: es, k, hlen => by
    have hrest := Expr.checkArgs_iff (k := k + 1) (Nat.succ.inj hlen)
    change (e.type >>= fun s => Typed.ensure (s.subtype t) _ l >>= fun _ =>
      Expr.checkArgs name l (k + 1) ts es) = .ok () ↔ _
    simp only [except_bind_iff, Typed.ensure_iff, exists_const, hrest, Expr.TypedAs, List.forall₂_cons, ← and_assoc,
      exists_and_right]
  | [], _ :: _, _, hlen | _ :: _, [], _, hlen => by cases hlen

/-- What a use of a routine or of a class comes to behind its decoration. -/
theorem Typed.arguments_iff {name' : String} :
    (do
      Typed.ensure (ts.length == es.length) (.wrongArgumentCount name ts.length es.length) l
      Expr.checkArgs name' l 1 ts es
      return s : Typed Ty) = .ok t ↔ Expr.TypedAs es ts ∧ t = s := by
  simp only [Sequencing.except_bind_iff, Typed.ensure_iff, exists_const]
  constructor
  · rintro ⟨hlen, _, hargs, h⟩
    cases h
    exact ⟨(Expr.checkArgs_iff (beq_iff_eq.mp hlen)).mp hargs, rfl⟩
  · rintro ⟨hargs, rfl⟩
    have hlen : ts.length = es.length := hargs.length_eq.symm
    exact ⟨beq_iff_eq.mpr hlen, (), (Expr.checkArgs_iff hlen).mpr hargs, rfl⟩

/-! ## Forms -/

namespace Expr

open Sequencing

theorem type_binary_iff {op : BinaryOp} : (Expr.binary op x y l).type = .ok t ↔
    ∃ s, x.type = .ok s ∧ ∃ u, y.type = .ok u ∧ op.resultType s u l = .ok t := by
  change (x.type >>= fun s => y.type >>= fun u => op.resultType s u l) = .ok t ↔ _
  simp only [except_bind_iff]

theorem type_not_iff : (Expr.not e l).type = .ok t ↔ e.type = .ok .bool ∧ t = .bool := by
  change (e.type >>= fun s => Typed.ensure (s.subtype .bool) _ l >>= fun _ => pure .bool) = .ok t ↔ _
  simp only [except_bind_iff (x := e.type), Typed.ensure_return_iff]
  constructor
  · rintro ⟨s, hs, hbool, rfl⟩
    cases Ty.eq_bool hbool
    exact ⟨hs, rfl⟩
  · rintro ⟨hs, rfl⟩
    exact ⟨_, hs, Ty.subtype_refl _, rfl⟩

theorem type_cond_iff : (Expr.cond c x y l).type = .ok t ↔
    c.type = .ok .bool ∧ ∃ s, x.type = .ok s ∧ ∃ u, y.type = .ok u ∧ s.join u l = .ok t := by
  change (c.type >>= fun s => Typed.ensure (s.subtype .bool) _ l >>= fun _ =>
    x.type >>= fun s => y.type >>= fun u => s.join u l) = .ok t ↔ _
  simp only [except_bind_iff, Typed.ensure_iff, exists_const]
  constructor
  · rintro ⟨s, hs, hbool, h⟩
    cases Ty.eq_bool hbool
    exact ⟨hs, h⟩
  · rintro ⟨hs, h⟩
    exact ⟨_, hs, Ty.subtype_refl _, h⟩

theorem type_id_iff {r : Option Resolution} : (Expr.id name r l).type = .ok t ↔
    ∃ q, r = some q ∧ q.entry.type = t ∧ t.isValue = true := by
  change (Typed.decoration r >>= fun q => q.entry.type.asValue name l) = .ok t ↔ _
  simp only [except_bind_iff, Typed.decoration_iff, Ty.asValue_iff]

theorem type_call_iff {r : Option Resolution} : (Expr.call name es r l).type = .ok t ↔
    ∃ q, r = some q ∧ ∃ g, q.entry.type = .arrow g ∧ TypedAs es g.params ∧ t = g.result := by
  change (Typed.decoration r >>= fun q => q.entry.type.asFunction name l >>= fun g => _) = .ok t ↔ _
  rw [except_bind_iff]
  simp only [except_bind_iff (x := Ty.asFunction _ _ _), Typed.decoration_iff, Ty.asFunction_iff, Typed.arguments_iff]

theorem type_new_iff {r : Option Resolution} : (Expr.new name es r l).type = .ok t ↔
    ∃ q, r = some q ∧ ∃ fs, (∃ ms, q.entry.type = .cls fs ms) ∧ TypedAs es fs ∧ t = .ref name := by
  change (Typed.decoration r >>= fun q => q.entry.type.asClass name l >>= fun fs => _) = .ok t ↔ _
  rw [except_bind_iff]
  simp only [except_bind_iff (x := Ty.asClass _ _ _), Typed.decoration_iff, Ty.asClass_iff, Typed.arguments_iff]

theorem type_methodCall_iff {b : Option Binding} : (Expr.methodCall e name es b l).type = .ok t ↔
    (∃ k, e.type = .ok (.ref k)) ∧ ∃ q, b = some q ∧ ∃ g, q.type = .arrow g ∧ TypedAs es g.params ∧ t = g.result := by
  change (e.type >>= fun s => s.ensureObject name l >>= fun _ => Typed.decoration b >>= fun q =>
    q.type.asFunction name l >>= fun g => _) = .ok t ↔ _
  rw [except_bind_iff]
  simp only [except_bind_iff (x := Ty.ensureObject _ _ _), except_bind_iff (x := Typed.decoration _),
    except_bind_iff (x := Ty.asFunction _ _ _), Ty.ensureObject_iff, Typed.decoration_iff, Ty.asFunction_iff,
    Typed.arguments_iff, exists_const]
  constructor
  · rintro ⟨_, hs, ⟨k, rfl⟩, h⟩
    exact ⟨⟨k, hs⟩, h⟩
  · rintro ⟨⟨k, hs⟩, h⟩
    exact ⟨_, hs, ⟨k, rfl⟩, h⟩

/-- A receiver that resolution takes to be of a class has the type of references to that class, if it has any. -/
theorem type_of_class? {k : String} (h : e.type = .ok t) (hc : e.class? = some k) : t = .ref k := by
  cases e with
  | id _ r =>
    obtain ⟨q, rfl, rfl, -⟩ := type_id_iff.mp h
    rw [Expr.class?] at hc
    split at hc
    · rename_i ht
      cases hc
      exact ht
    · cases hc
  | new =>
    obtain ⟨_, -, _, -, -, rfl⟩ := type_new_iff.mp h
    cases hc
    rfl
  | call _ _ r =>
    obtain ⟨q, rfl, g, hg, -, rfl⟩ := type_call_iff.mp h
    exact Ty.result_of_returnedClass? hg hc
  | methodCall _ _ _ b =>
    obtain ⟨-, q, rfl, g, hg, -, rfl⟩ := type_methodCall_iff.mp h
    exact Ty.result_of_returnedClass? hg hc
  | _ => cases hc

end Expr

end FoolLang
