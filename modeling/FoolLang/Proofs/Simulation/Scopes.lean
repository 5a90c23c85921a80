/-
The scopes in which routines run, and where they stand in memory: the members of an object on the heap, the
arguments of a call in the frame above its static link, the declarations of a routine in the frame below.
-/
import FoolLang.Proofs.Simulation.Arguments

namespace FoolLang

open Machine

/-! ## Addresses -/

theorem Machine.stackAt_eq_ofInt (d : Nat) : stackAt d = .ofInt (memSize - d) := by
  rw [Int32.ofInt_sub, Int32.ofInt_eq_ofNat, Int32.ofInt_eq_ofNat]
  rfl

theorem Machine.stackAt_add {d e : Nat} {z : Int} (h : (e : Int) = d - z) : stackAt d + .ofInt z = stackAt e := by
  rw [stackAt_eq_ofInt, stackAt_eq_ofInt, ← Int32.ofInt_add]
  congr 1
  omega

theorem Machine.ofNat_add_ofInt {m n : Nat} {z : Int} (h : (n : Int) = m + z) :
    Int32.ofNat m + .ofInt z = .ofNat n := by
  rw [← Int32.ofInt_eq_ofNat, ← Int32.ofInt_eq_ofNat, ← Int32.ofInt_add, h]

/-- A word on the stack stands as far above the address of the topmost one as it is below the top. -/
theorem Machine.Config.Holds.below {c : Config} {k : Nat} {w : Int32} (h : c.stack[k]? = some w) :
    c.Holds (stackAt c.stack.length + .ofNat k) w := by
  have hk := (List.getElem?_eq_some_iff.mp h).1
  have haddress : stackAt c.stack.length + .ofNat k = stackAt (c.stack.length - 1 - k + 1) := by
    rw [← Int32.ofInt_eq_ofNat]
    exact stackAt_add (by omega)
  rw [haddress]
  refine .stack ?_
  rw [List.getElem?_reverse (by omega), ← h]
  congr 1
  omega

section

variable {p : Program} {σ : Store} {c : Config} {base : Int32} {outer : List Names} {ns : Names}
variable {sc : List (String × Meaning)} {ρ : Env} {v : View} {x : String}

/-! ## Scopes -/

theorem Members.ofEntries (h : List.Forall₂ (Entry σ c outer.length base) ns sc) : Members p σ c outer base ns sc := by
  induction h with
  | nil => exact .nil
  | cons head _ ih => exact .entry head ih

/-- Classes have no meaning in a scope. -/
theorem Members.ofClasses (h : ∀ x ∈ ns, ∃ fs ms, x.2.type = .cls fs ms) : Members p σ c outer base ns [] := by
  induction ns with
  | nil => exact .nil
  | cons x ns ih =>
    obtain ⟨fs, ms, hx⟩ := h x List.mem_cons_self
    exact .cls hx (ih fun y hy => h y (List.mem_cons_of_mem _ hy))

theorem ClassDecl.names_cls (cs : List ClassDecl) : ∀ x ∈ ClassDecl.names cs, ∃ fs ms, x.2.type = .cls fs ms := by
  intro x hx
  obtain ⟨i, hi, rfl⟩ := List.mem_mapIdx.mp (List.mem_reverse.mp hx)
  exact ⟨_, _, rfl⟩

/-- Names with types stand for words that are values of these types. -/
theorem Entry.values {depth : Nat} {fs : List Formal} {ws : List Int32} {offset : Nat → Int32}
    (hv : Formal.Valued fs) (hfits : σ.FitsAll ws (fs.map (·.type)))
    (hw : ∀ (j : Nat) w, ws[j]? = some w → c.Holds (base + offset j) w) :
    List.Forall₂ (Entry σ c depth base) (fs.mapIdx fun i f => (f.name, ⟨depth, f.type, offset i, false⟩))
      ((fs.zip ws).map fun x => (x.1.name, Meaning.value x.2)) := by
  have hlen := hfits.length_eq
  rw [List.length_map] at hlen
  refine List.forall₂_iff_get.mpr ⟨by simp [hlen], fun i h₁ h₂ => ?_⟩
  rw [List.length_mapIdx] at h₁
  have hi : i < ws.length := by omega
  have hfit := hfits.get hi (by rw [List.length_map]; exact h₁)
  simp only [List.get_eq_getElem, List.getElem_mapIdx, List.getElem_map, List.getElem_zip] at hfit ⊢
  exact .value rfl rfl (hv _ (List.getElem_mem h₁)) (hw i _ (List.getElem?_eq_getElem hi)) hfit

namespace EnvAt

/-- One more name in the innermost scope. -/
theorem cons {n : String × Binding} {m : String × Meaning} (h : EnvAt p σ c (ns :: outer) (sc :: ρ) base)
    (hm : Members p σ c outer base ns sc → Members p σ c outer base (n :: ns) (m :: sc)) :
    EnvAt p σ c ((n :: ns) :: outer) ((m :: sc) :: ρ) base := by
  cases h with
  | outermost h => exact .outermost (hm h)
  | inner h around hlink => exact .inner (hm h) around hlink

/-- A declaration adds to the innermost scope what it declares. -/
theorem declare {t : Ty} {m : Meaning} (h : EnvAt p σ c v.scopes ρ base)
    (hm : ∀ sc, Members p σ c v.around base v.own sc → Members p σ c v.around base
      ((x, ⟨v.depth, t, View.offset v.taken, false⟩) :: v.own) ((x, m) :: sc)) :
    EnvAt p σ c (v.declare x t).scopes (ρ.declare x m) base := by
  obtain ⟨own, around, taken⟩ := v
  cases ρ with
  | nil => cases h
  | cons sc ρ => exact cons h (hm sc)

/-- The scope of the parameters of a routine stands in the frame above its static link. -/
theorem inside {r : Routine} {vs rest : List Int32} {link : Int32}
    (h : EnvAt p σ c v.scopes ρ link) (hs : c.stack = link :: (vs ++ rest)) (hv : Formal.Valued r.params)
    (hfits : σ.FitsAll vs (r.params.map (·.type))) :
    EnvAt p σ c (v.inside r.params).scopes (r.arguments vs :: ρ) (stackAt c.stack.length) := by
  refine .inner (.ofEntries (List.rel_reverse (Entry.values hv hfits fun j w hj => ?_))) h fun _ => ?_
  · refine .below ?_
    rw [hs, List.getElem?_cons_succ, List.getElem?_append_left (List.getElem?_eq_some_iff.mp hj).1, hj]
  · have hlink : c.Holds (stackAt c.stack.length + .ofNat 0) link := .below (by rw [hs]; rfl)
    rwa [show Int32.ofNat 0 = 0 from rfl, Int32.add_zero] at hlink

end EnvAt

/-! ## Objects -/

/-- The scope of the members of an object stands on the heap from its address downward. -/
theorem Made.members {this : Int32} {o : Object} {names : Names} (h : Made p σ c.heap this o)
    (ho : σ.object? this = some o) (hfields : o.cls.ownFields = o.cls.fields)
    (hmethods : o.cls.ownMethods = o.cls.methods)
    (hv : Formal.Valued o.cls.fields) : Members p σ c [names] this o.cls.memberNames (o.members this) := by
  obtain ⟨⟨k, i, rfl, hi, htable, hle, hplace⟩, hcount, htypes⟩ := h
  have hfits : σ.FitsAll o.fields (o.cls.fields.map (·.type)) := by
    refine List.forall₂_iff_get.mpr ⟨by rw [hcount, List.length_map], fun j h₁ h₂ => ?_⟩
    rw [List.length_map] at h₂
    simp only [List.get_eq_getElem, List.getElem_map]
    exact htypes j _ _ (List.getElem?_eq_getElem h₂) (List.getElem?_eq_getElem h₁)
  refine .ofEntries (List.rel_reverse (List.rel_append ?_ ?_))
  · rw [ClassDecl.fieldNames, hfields]
    refine Entry.values hv hfits fun j w hj => ?_
    have hlt := (List.getElem?_eq_some_iff.mp hj).1
    rw [ofNat_add_ofInt (n := k - 1 - j) (by omega)]
    exact .heap (hplace j w hj)
  · rw [ClassDecl.methodNames, hmethods]
    refine List.forall₂_iff_get.mpr ⟨by simp, fun j h₁ h₂ => ?_⟩
    rw [List.length_mapIdx] at h₁
    simp only [List.get_eq_getElem, List.getElem_mapIdx, List.getElem_map]
    exact .method rfl ho (List.getElem?_eq_getElem h₁)

/-- The scopes in which the methods of an object run. -/
theorem Made.env {this : Int32} {o : Object} {earlier : List ClassDecl} (h : Made p σ c.heap this o)
    (ho : σ.object? this = some o) (hfields : o.cls.ownFields = o.cls.fields)
    (hmethods : o.cls.ownMethods = o.cls.methods)
    (hv : Formal.Valued o.cls.fields) : EnvAt p σ c (o.cls.view earlier).scopes (o.env this) this := by
  refine .inner (h.members ho hfields hmethods hv) (.outermost (.ofClasses (ClassDecl.names_cls _))) fun hn => ?_
  exact absurd hn (Nat.not_succ_le_self 1)

end

end FoolLang
