/-
The parts of an expression stand where the code of the expression says, each with a type of its own: what
the resolution, the type and the code of an expression say of those of its parts.
-/
import FoolLang.Proofs.Simulation.Situation
import FoolLang.Proofs.Static.Inversion

namespace FoolLang

open Machine

section

variable (p : Program) (code : Array Op)

/-- Some expressions whose code stands in their order. -/
structure SiteAll (v : View) (es : List Expr) (a : Nat) (ts : List Ty) : Prop where
  resolved : Expr.ResolvedAll p.classes v es
  types : Expr.TypedAs es ts
  laid : Expr.LaidAll code a es
  lt : a + Expr.sizeAll es < code.size
  spots : Expr.spotsAll a es ⊆ p.spots

/-- Some expressions whose code stands in the reverse order. -/
structure SiteReversed (v : View) (es : List Expr) (a : Nat) (ts : List Ty) : Prop where
  resolved : Expr.ResolvedAll p.classes v es
  types : Expr.TypedAs es ts
  laid : Expr.LaidReversed code a es
  lt : a + Expr.sizeAll es < code.size
  spots : Expr.spotsReversed a es ⊆ p.spots

end

variable {p : Program} {code : Array Op} {v : View} {a l : Nat} {t : Ty} {x y c e : Expr} {op : BinaryOp}
variable {es : List Expr} {ts : List Ty}

theorem BinaryOp.resultType_short {s u : Ty} (hop : op.isShort = true) (h : op.resultType s u l = .ok t) :
    s = .bool ∧ u = .bool ∧ t = .bool := by
  have htruths : op.OnTruths := by
    cases op with
    | and => exact .inl rfl
    | or => exact .inr rfl
    | _ => cases hop
  obtain ⟨⟨hs, hu⟩, rfl⟩ := htruths.resultType_iff.mp h
  exact ⟨Ty.eq_bool hs, Ty.eq_bool hu, rfl⟩

/-! ## Operators -/

namespace Site

theorem strict (h : Site p code v (.binary op x y l) a t) (hop : op.isShort = false) :
    ∃ s u, Site p code v x a s ∧ Site p code v y (a + x.size) u ∧ op.resultType s u l = .ok t ∧
      Stands code (a + x.size + y.size) (op.tail (a + x.size + y.size)) := by
  obtain ⟨⟨hrx, hry⟩, ht, hl, hlt, hspots⟩ := h
  obtain ⟨s, hs, u, hu, ht⟩ := Expr.type_binary_iff.mp ht
  obtain ⟨hlx, hly, htail⟩ := (Expr.laid_strict x y l a hop code).mp hl
  have hsize := Expr.size_strict x y l hop
  rw [Expr.spots_strict x y l a hop] at hspots
  refine ⟨s, u, ⟨hrx, hs, hlx, by omega, ?_⟩, ⟨hry, hu, hly, by omega, ?_⟩, ht, htail⟩
  · exact fun spot hspot => hspots (by simp [hspot])
  · exact fun spot hspot => hspots (by simp [hspot])

theorem short (h : Site p code v (.binary op x y l) a t) (hop : op.isShort = true) :
    t = .bool ∧ Site p code v x a .bool ∧ Site p code v y (a + x.size + 2) .bool ∧
      Stands code (a + x.size) [.push op.settled, .jump .ifEqual (a + x.size + 2 + y.size + 4)] ∧
      Stands code (a + x.size + 2 + y.size)
        [.push op.settled, .jump .ifEqual (a + x.size + 2 + y.size + 4), .push op.unsettled,
          .jump .always (a + x.size + 2 + y.size + 5), .push op.settled] := by
  obtain ⟨⟨hrx, hry⟩, ht, hl, hlt, hspots⟩ := h
  obtain ⟨s, hs, u, hu, ht⟩ := Expr.type_binary_iff.mp ht
  obtain ⟨rfl, rfl, rfl⟩ := BinaryOp.resultType_short hop ht
  obtain ⟨hlx, htest, hly, htail⟩ := (Expr.laid_short x y l a hop code).mp hl
  have hsize := Expr.size_short x y l hop
  rw [Expr.spots_short x y l a hop] at hspots
  refine ⟨rfl, ⟨hrx, hs, hlx, by omega, ?_⟩, ⟨hry, hu, hly, by omega, ?_⟩, htest, htail⟩
  · exact fun spot hspot => hspots (by simp [hspot])
  · exact fun spot hspot => hspots (by simp [hspot])

theorem not (h : Site p code v (.not e l) a t) :
    t = .bool ∧ Stands code a [.push 1] ∧ Site p code v e (a + 1) .bool ∧
      Stands code (a + 1 + e.size) [.plain (.arith .sub)] := by
  obtain ⟨hr, ht, ⟨hone, hl, hsub⟩, hlt, hspots⟩ := h
  obtain ⟨hs, rfl⟩ := Expr.type_not_iff.mp ht
  have hsize : (Expr.not e l).size = 1 + e.size + 1 := rfl
  exact ⟨rfl, hone, ⟨hr, hs, hl, by omega, fun spot hspot => hspots (List.mem_cons_of_mem _ hspot)⟩, hsub⟩

theorem cond (h : Site p code v (.cond c x y l) a t) :
    Site p code v c a .bool ∧ Stands code (a + c.size) [.push 1, .jump .ifEqual (a + c.size + 2 + y.size + 1)] ∧
      Stands code (a + c.size + 2 + y.size) [.jump .always (a + c.size + 2 + y.size + 1 + x.size)] ∧
      ∃ s u, s.subtype t = true ∧ u.subtype t = true ∧ Site p code v x (a + c.size + 2 + y.size + 1) s ∧
        Site p code v y (a + c.size + 2) u := by
  obtain ⟨⟨hrc, hrx, hry⟩, ht, ⟨hlc, htest, hly, hjump, hlx⟩, hlt, hspots⟩ := h
  obtain ⟨hk, s, hs, u, hu, ht⟩ := Expr.type_cond_iff.mp ht
  obtain ⟨hst, hut⟩ := Ty.join_subtype ht
  have hsize : (Expr.cond c x y l).size = c.size + 2 + y.size + 1 + x.size := rfl
  have hsub : ∀ spot, spot ∈ c.spots a ++ y.spots (a + c.size + 2) ++ x.spots (a + c.size + 2 + y.size + 1) →
      spot ∈ p.spots := fun spot hspot => hspots (List.mem_cons_of_mem _ hspot)
  refine ⟨⟨hrc, hk, hlc, by omega, ?_⟩, htest, hjump, s, u, hst, hut, ⟨hrx, hs, hlx, by omega, ?_⟩,
    ⟨hry, hu, hly, by omega, ?_⟩⟩
  · exact fun spot hspot => hsub spot (by simp [hspot])
  · exact fun spot hspot => hsub spot (by simp [hspot])
  · exact fun spot hspot => hsub spot (by simp [hspot])

theorem print (h : Site p code v (.print e l) a t) :
    Site p code v e a t ∧ Stands code (a + e.size) [.plain .print] := by
  obtain ⟨hr, ht, ⟨hl, hprint⟩, hlt, hspots⟩ := h
  have hsize : (Expr.print e l).size = e.size + 1 := rfl
  exact ⟨⟨hr, ht, hl, by omega, fun spot hspot => hspots (List.mem_cons_of_mem _ hspot)⟩, hprint⟩

end Site

/-! ## Names -/

namespace Site

theorem id {x : String} {r : Option Resolution} (h : Site p code v (.id x r l) a t) :
    ∃ b, v.find? x = some b ∧ r = some ⟨b, v.depth⟩ ∧ b.type = t ∧ t.isValue = true ∧
      Stands code a (Code.ops (Code.slotOf ⟨b, v.depth⟩)) := by
  obtain ⟨⟨b, hb, rfl⟩, ht, hl, -, -⟩ := h
  obtain ⟨q, hr, hbt, hvalue⟩ := Expr.type_id_iff.mp ht
  cases hr
  exact ⟨b, hb, rfl, hbt, hvalue, hl⟩

theorem call {x : String} {r : Option Resolution} (h : Site p code v (.call x es r l) a t) :
    ∃ b g, v.find? x = some b ∧ r = some ⟨b, v.depth⟩ ∧ b.type = .arrow g ∧ g.result = t ∧
      Stands code a [.plain (.load .fp)] ∧ SiteReversed p code v es (a + 1) g.params ∧
      Stands code (a + 1 + Expr.sizeAll es) (Code.ops (Code.callOf ⟨b, v.depth⟩)) := by
  obtain ⟨⟨⟨b, hb, rfl⟩, hr⟩, ht, ⟨hfp, hl, hcall⟩, hlt, hspots⟩ := h
  obtain ⟨q, hr', g, hg, htypes, rfl⟩ := Expr.type_call_iff.mp ht
  cases hr'
  have hsize : 1 + Expr.sizeAll es ≤ (Expr.call x es (some ⟨b, v.depth⟩) l).size := Nat.le_add_right _ _
  exact ⟨b, g, hb, rfl, hg, rfl, hfp,
    ⟨hr, htypes, hl, by omega, fun spot hspot => hspots (List.mem_cons_of_mem _ hspot)⟩, hcall⟩

theorem new {x : String} {r : Option Resolution} (h : Site p code v (.new x es r l) a t) :
    ∃ (i : Nat) (cls : ClassDecl), p.classes[i]? = some cls ∧ cls.name = x ∧ t = .ref x ∧
      r = some ⟨⟨0, cls.type, View.offset i, false⟩, v.depth⟩ ∧
      SiteAll p code v es a (cls.ownFields.map (·.type)) ∧
      Stands code (a + Expr.sizeAll es) (Code.ops (Code.object es.length (View.offset i))) := by
  obtain ⟨⟨⟨i, cls, hi, hname, rfl⟩, hr⟩, ht, ⟨hl, hobject⟩, hlt, hspots⟩ := h
  obtain ⟨q, hr', fs, ⟨ms, hfs⟩, htypes, rfl⟩ := Expr.type_new_iff.mp ht
  cases hr'
  cases hfs
  have hsize : Expr.sizeAll es ≤ (Expr.new x es (some ⟨⟨0, cls.type, View.offset i, false⟩, v.depth⟩) l).size :=
    Nat.le_add_right _ _
  exact ⟨i, cls, hi, hname, rfl, rfl,
    ⟨hr, htypes, hl, by omega, fun spot hspot => hspots (List.mem_cons_of_mem _ hspot)⟩, hobject⟩

theorem methodCall {x : String} {b : Option Binding} (h : Site p code v (.methodCall e x es b l) a t) :
    ∃ cls ∈ p.classes, ∃ b' g, cls.memberNames.lookup x = some b' ∧ b'.isMethod = true ∧ b = some b' ∧
      b'.type = .arrow g ∧ g.result = t ∧ Stands code a [.plain (.load .fp)] ∧
      SiteReversed p code v es (a + 1) g.params ∧ Site p code v e (a + 1 + Expr.sizeAll es) (.ref cls.name) ∧
      Stands code (a + 1 + Expr.sizeAll es + e.size) (Code.ops (Code.sendTo b'.offset)) := by
  obtain ⟨⟨hre, ⟨cls, hcls, hclass, b', hb, hm, rfl⟩, hr⟩, ht, ⟨hfp, hl, hle, hsend⟩, hlt, hspots⟩ := h
  obtain ⟨⟨y, hs⟩, q, hb', g, hg, htypes, rfl⟩ := Expr.type_methodCall_iff.mp ht
  cases hb'
  cases Expr.type_of_class? hs hclass
  have hsize : (Expr.methodCall e x es (some b') l).size = 1 + Expr.sizeAll es + e.size + 8 := rfl
  refine ⟨cls, hcls, b', g, hb, hm, rfl, hg, rfl, hfp,
    ⟨hr, htypes, hl, by omega, ?_⟩, ⟨hre, hs, hle, by omega, ?_⟩, hsend⟩
  · exact fun spot hspot => hspots (List.mem_cons_of_mem _ (List.mem_append_left _ hspot))
  · exact fun spot hspot => hspots (List.mem_cons_of_mem _ (List.mem_append_right _ hspot))

end Site

/-! ## Arguments -/

theorem SiteAll.cons (h : SiteAll p code v (e :: es) a (t :: ts)) :
    ∃ s, s.subtype t = true ∧ Site p code v e a s ∧ SiteAll p code v es (a + e.size) ts := by
  obtain ⟨⟨hre, hr⟩, ht, ⟨hle, hl⟩, hlt, hspots⟩ := h
  obtain ⟨⟨s, hs, hst⟩, hts⟩ := List.forall₂_cons.mp ht
  have hsize : Expr.sizeAll (e :: es) = e.size + Expr.sizeAll es := rfl
  refine ⟨s, hst, ⟨hre, hs, hle, by omega, ?_⟩, ⟨hr, hts, hl, by omega, ?_⟩⟩
  · exact fun spot hspot => hspots (List.mem_append_left _ hspot)
  · exact fun spot hspot => hspots (List.mem_append_right _ hspot)

theorem SiteReversed.cons (h : SiteReversed p code v (e :: es) a (t :: ts)) :
    ∃ s, s.subtype t = true ∧ Site p code v e (a + Expr.sizeAll es) s ∧ SiteReversed p code v es a ts := by
  obtain ⟨⟨hre, hr⟩, ht, ⟨hl, hle⟩, hlt, hspots⟩ := h
  obtain ⟨⟨s, hs, hst⟩, hts⟩ := List.forall₂_cons.mp ht
  have hsize : Expr.sizeAll (e :: es) = e.size + Expr.sizeAll es := rfl
  refine ⟨s, hst, ⟨hre, hs, hle, by omega, ?_⟩, ⟨hr, hts, hl, by omega, ?_⟩⟩
  · exact fun spot hspot => hspots (List.mem_append_right _ hspot)
  · exact fun spot hspot => hspots (List.mem_append_left _ hspot)

end FoolLang
