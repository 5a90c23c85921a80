/-
The declarative type system: one rule for each form of expressions, and subsumption anywhere. An expression may have
many types there and need not be typed by its form. In programs without problems of resolution, typing gives a type just
where there is one, and gives the least.
-/
import FoolLang.Proofs.Static.Receivers

namespace FoolLang

/-! ## The rules -/

mutual

/-- An expression has a type. -/
inductive Expr.HasType : Expr → Ty → Prop
  | int {n l} : HasType (.int n l) .int
  | bool {b l} : HasType (.bool b l) .bool
  | null {l} : HasType (.null l) .null
  | arithmetic {op a b l} : op.OnIntegers → HasType a .int → HasType b .int → HasType (.binary op a b l) .int
  /-- What is compared has any type in common. -/
  | comparison {op a b l t} : op.Compares → HasType a t → HasType b t → HasType (.binary op a b l) .bool
  | logic {op a b l} : op.OnTruths → HasType a .bool → HasType b .bool → HasType (.binary op a b l) .bool
  | not {e l} : HasType e .bool → HasType (.not e l) .bool
  | cond {c a b l t} : HasType c .bool → HasType a t → HasType b t → HasType (.cond c a b l) t
  | print {e l t} : HasType e t → HasType (.print e l) t
  /-- A name that is bound to a value, not to a function or a class. -/
  | id {name r l} : r.entry.type.isValue = true → HasType (.id name (some r) l) r.entry.type
  | call {name args r l g} : r.entry.type = .arrow g → HasTypes args g.params →
    HasType (.call name args (some r) l) g.result
  | new {c args r l fields methods} : r.entry.type = .cls fields methods → HasTypes args fields →
    HasType (.new c args (some r) l) (.ref c)
  | methodCall {receiver method args b l c g} : HasType receiver (.ref c) → b.type = .arrow g → HasTypes args g.params →
    HasType (.methodCall receiver method args (some b) l) g.result
  | subsume {e s t} : HasType e s → s.subtype t = true → HasType e t

/-- As many expressions as there are types have these types. -/
inductive Expr.HasTypes : List Expr → List Ty → Prop
  | nil : HasTypes [] []
  | cons {e es t ts} : HasType e t → HasTypes es ts → HasTypes (e :: es) (t :: ts)

end

namespace Expr

variable {classes : List ClassDecl} {v : View}

/-! ## Soundness -/

mutual

/-- What typing gives is a type by the rules. -/
theorem hasType_of_type : ∀ {e : Expr} {t : Ty}, e.type = .ok t → e.HasType t
  | .int _ _, _, h => by cases h; exact .int
  | .bool _ _, _, h => by cases h; exact .bool
  | .null _, _, h => by cases h; exact .null
  | .binary op a b l, t, h => by
    obtain ⟨s, hs, u, hu, h⟩ := type_binary_iff.mp h
    have ha := hasType_of_type hs
    have hb := hasType_of_type hu
    rcases op.kinds with hop | hop | hop
    · obtain ⟨⟨hsInt, huInt⟩, rfl⟩ := hop.resultType_iff.mp h
      exact .arithmetic hop (ha.subsume hsInt) (hb.subsume huInt)
    · obtain ⟨hsu | hus, rfl⟩ := hop.resultType_iff.mp h
      · exact .comparison hop (ha.subsume hsu) hb
      · exact .comparison hop ha (hb.subsume hus)
    · obtain ⟨⟨hsBool, huBool⟩, rfl⟩ := hop.resultType_iff.mp h
      exact .logic hop (ha.subsume hsBool) (hb.subsume huBool)
  | .not e l, t, h => by
    obtain ⟨he, rfl⟩ := type_not_iff.mp h
    exact .not (hasType_of_type he)
  | .cond c a b l, t, h => by
    obtain ⟨hc, s, hs, u, hu, h⟩ := type_cond_iff.mp h
    obtain ⟨hst, hut⟩ := Ty.join_subtype h
    exact .cond (hasType_of_type hc) ((hasType_of_type hs).subsume hst) ((hasType_of_type hu).subsume hut)
  | .print e l, t, h => .print (hasType_of_type (e := e) h)
  | .id name r l, t, h => by
    obtain ⟨q, rfl, rfl, hvalue⟩ := type_id_iff.mp h
    exact .id hvalue
  | .call name args r l, t, h => by
    obtain ⟨q, rfl, g, hg, hargs, rfl⟩ := type_call_iff.mp h
    exact .call hg (hasTypes_of_typedAs hargs)
  | .new c args r l, t, h => by
    obtain ⟨q, rfl, fields, ⟨methods, hclass⟩, hargs, rfl⟩ := type_new_iff.mp h
    exact .new hclass (hasTypes_of_typedAs hargs)
  | .methodCall receiver method args b l, t, h => by
    obtain ⟨⟨c, hreceiver⟩, q, rfl, g, hg, hargs, rfl⟩ := type_methodCall_iff.mp h
    exact .methodCall (hasType_of_type hreceiver) hg (hasTypes_of_typedAs hargs)

theorem hasTypes_of_typedAs : ∀ {es : List Expr} {ts : List Ty}, TypedAs es ts → HasTypes es ts
  | [], [], _ => .nil
  | e :: es, t :: ts, h => by
    obtain ⟨⟨s, hs, hst⟩, hrest⟩ := List.forall₂_cons.mp h
    exact .cons ((hasType_of_type hs).subsume hst) (hasTypes_of_typedAs hrest)
  | [], _ :: _, h | _ :: _, [], h => by cases h

end

/-! ## Completeness -/

mutual

/--
A resolved expression that has a type by the rules is given one by typing, which goes for the other. The induction is on
the rules, since subsumption keeps the expression.
-/
theorem HasType.exists_type : ∀ {e : Expr} {t : Ty}, e.HasType t → e.Resolved classes v →
    ∃ s, e.type = .ok s ∧ s.subtype t = true
  | _, _, .int, _ | _, _, .bool, _ | _, _, .null, _ => ⟨_, rfl, Ty.subtype_refl _⟩
  | _, _, .arithmetic hop ha hb, h => by
    obtain ⟨s, hs, hsInt⟩ := ha.exists_type h.1
    obtain ⟨u, hu, huInt⟩ := hb.exists_type h.2
    refine ⟨.int, type_binary_iff.mpr ⟨s, hs, u, hu, ?_⟩, Ty.subtype_refl _⟩
    exact hop.resultType_iff.mpr ⟨⟨hsInt, huInt⟩, rfl⟩
  | _, _, .comparison hop ha hb, h => by
    obtain ⟨s, hs, hst⟩ := ha.exists_type h.1
    obtain ⟨u, hu, hut⟩ := hb.exists_type h.2
    -- Typing looks for no common type, but asks whether one of the two goes for the other.
    refine ⟨.bool, type_binary_iff.mpr ⟨s, hs, u, hu, ?_⟩, Ty.subtype_refl _⟩
    exact hop.resultType_iff.mpr ⟨Ty.subtype_or_subtype hst hut, rfl⟩
  | _, _, .logic hop ha hb, h => by
    obtain ⟨s, hs, hsBool⟩ := ha.exists_type h.1
    obtain ⟨u, hu, huBool⟩ := hb.exists_type h.2
    refine ⟨.bool, type_binary_iff.mpr ⟨s, hs, u, hu, ?_⟩, Ty.subtype_refl _⟩
    exact hop.resultType_iff.mpr ⟨⟨hsBool, huBool⟩, rfl⟩
  | _, _, .not he, h => by
    obtain ⟨s, hs, hbool⟩ := he.exists_type h
    cases Ty.eq_bool hbool
    exact ⟨.bool, type_not_iff.mpr ⟨hs, rfl⟩, Ty.subtype_refl _⟩
  | _, _, .cond hc ha hb, h => by
    obtain ⟨r, hr, hbool⟩ := hc.exists_type h.1
    obtain ⟨s, hs, hst⟩ := ha.exists_type h.2.1
    obtain ⟨u, hu, hut⟩ := hb.exists_type h.2.2
    cases Ty.eq_bool hbool
    obtain ⟨j, hj, hjt⟩ := Ty.join_of_subtype hst hut
    exact ⟨j, type_cond_iff.mpr ⟨hr, s, hs, u, hu, hj⟩, hjt⟩
  | _, _, .print he, h => he.exists_type h
  | _, _, .id hvalue, _ => ⟨_, type_id_iff.mpr ⟨_, rfl, rfl, hvalue⟩, Ty.subtype_refl _⟩
  | _, _, .call hg hargs, h =>
    ⟨_, type_call_iff.mpr ⟨_, rfl, _, hg, hargs.typedAs h.2, rfl⟩, Ty.subtype_refl _⟩
  | _, _, .new hclass hargs, h =>
    ⟨_, type_new_iff.mpr ⟨_, rfl, _, ⟨_, hclass⟩, hargs.typedAs h.2, rfl⟩, Ty.subtype_refl _⟩
  | _, _, .methodCall hreceiver hg hargs, h => by
    -- The type that goes for the class could be that of null, but the receiver is of a class.
    obtain ⟨r, hr, -⟩ := hreceiver.exists_type h.1
    obtain ⟨k, -, hclass, -⟩ := h.2.1
    cases type_of_class? hr hclass
    exact ⟨_, type_methodCall_iff.mpr ⟨⟨_, hr⟩, _, rfl, _, hg, hargs.typedAs h.2.2, rfl⟩, Ty.subtype_refl _⟩
  | _, _, .subsume he hst, h => by
    obtain ⟨r, hr, hrs⟩ := he.exists_type h
    exact ⟨r, hr, Ty.subtype_trans hrs hst⟩

theorem HasTypes.typedAs : ∀ {es : List Expr} {ts : List Ty}, HasTypes es ts → ResolvedAll classes v es →
    TypedAs es ts
  | _, _, .nil, _ => .nil
  | _, _, .cons he hes, h => .cons (he.exists_type h.1) (hes.typedAs h.2)

end

/-- A resolved expression has a type just where it has one by the rules. -/
theorem exists_type_iff {e : Expr} (h : e.Resolved classes v) : (∃ t, e.type = .ok t) ↔ ∃ t, e.HasType t := by
  constructor
  · rintro ⟨t, ht⟩
    exact ⟨t, hasType_of_type ht⟩
  · rintro ⟨t, ht⟩
    obtain ⟨s, hs, -⟩ := ht.exists_type h
    exact ⟨s, hs⟩

/-- The type of a resolved expression is the least of those that it has by the rules. -/
theorem type_iff_least {e : Expr} {t : Ty} (h : e.Resolved classes v) :
    e.type = .ok t ↔ e.HasType t ∧ ∀ u, e.HasType u → t.subtype u = true := by
  constructor
  · intro ht
    refine ⟨hasType_of_type ht, fun u hu => ?_⟩
    obtain ⟨s, hs, hsu⟩ := hu.exists_type h
    cases ht.symm.trans hs
    exact hsu
  · rintro ⟨ht, hleast⟩
    obtain ⟨s, hs, hst⟩ := ht.exists_type h
    cases Ty.subtype_antisymm hst (hleast s (hasType_of_type hs))
    exact hs

end Expr

/--
Typing is sound and complete for the rules, and gives least types. In a program without problems of resolution, typing
gives an expression a type just where it has one by the rules, and this is the one that goes for all of them.
-/
theorem Program.type_least (p : Program) (hs : p.resolve.2.problems = []) : ∀ e ∈ p.resolve.1.parts,
    ((∃ t, e.type = .ok t) ↔ ∃ t, e.HasType t) ∧
    ∀ t, e.type = .ok t ↔ e.HasType t ∧ ∀ u, e.HasType u → t.subtype u = true := by
  intro e he
  obtain ⟨v, hresolved⟩ := (p.resolve_resolved hs).parts e he
  exact ⟨Expr.exists_type_iff hresolved, fun t => Expr.type_iff_least hresolved⟩

/-- An object or null, as the comparison of a truth value with an integer comes out. -/
def chosenObject : Program :=
  .letIn [⟨"C", [⟨"x", .int, 1⟩], [], 1⟩] []
    (.cond (.binary .equal (.bool true 2) (.int 1 2) 2) (.new "C" [.bool true 2] none 2) (.null 2) 2)

theorem type_least_chosenObject : chosenObject.resolve.2.problems = [] ∧
    chosenObject.resolve.1.body.type = .ok (.ref "C") ∧ chosenObject.resolve.1.body.HasType (.ref "C") ∧
    ∀ u, chosenObject.resolve.1.body.HasType u → (Ty.ref "C").subtype u = true := by
  have hs : chosenObject.resolve.2.problems = [] := by decide
  have htype : chosenObject.resolve.1.body.type = .ok (.ref "C") := by decide +kernel
  obtain ⟨-, hleast⟩ := chosenObject.type_least hs _ chosenObject.resolve.1.body_mem_parts
  obtain ⟨hhas, hmin⟩ := (hleast _).mp htype
  exact ⟨hs, htype, hhas, hmin⟩

end FoolLang
