/-
What a configuration of the machine shows of an evaluation. The heap holds the dispatch tables and the
objects of the store; a frame holds at their offsets what the names of a scope mean, and static links
lead from each frame to the frame around it. Main statement: what a name means is found in the frame
that its binding says, as many links away as it says.
-/
import FoolLang.Proofs.Code.Layout
import FoolLang.Proofs.Machine.Config
import FoolLang.Proofs.Static.Judgement

namespace FoolLang

open Machine

/-! ## Values -/

namespace Store

variable {σ σ' σ'' : Store} {w : Int32} {s t : Ty}

/-- Whether a word is a value of a type. -/
def Fits (σ : Store) (w : Int32) : Ty → Prop
  | .bool => w = 0 ∨ w = 1
  | .null => w = -1
  | .ref c => w = -1 ∨ ∃ o, σ.object? w = some o ∧ o.cls.name = c
  | _ => True

/-- Objects never go away and never change. -/
def Extends (σ σ' : Store) : Prop := ∀ a o, σ.object? a = some o → σ'.object? a = some o

theorem Extends.refl (σ : Store) : σ.Extends σ := fun _ _ h => h

theorem Extends.trans (h : σ.Extends σ') (h' : σ'.Extends σ'') : σ.Extends σ'' :=
  fun a o ho => h' a o (h a o ho)

theorem Fits.mono (h : σ.Fits w t) (hσ : σ.Extends σ') : σ'.Fits w t := by
  cases t with
  | ref c =>
    rcases h with h | ⟨o, ho, hc⟩
    · exact .inl h
    · exact .inr ⟨o, hσ w o ho, hc⟩
  | _ => exact h

theorem Fits.subtype (h : σ.Fits w s) (hs : s.subtype t = true) : σ.Fits w t := by
  unfold Ty.subtype at hs
  split at hs
  · trivial
  · exact .inl h
  · exact of_decide_eq_true hs ▸ h

end Store

/-! ## The heap -/

/-- Where the dispatch table of a class begins on the heap. -/
def Program.tableAt (p : Program) (i : Nat) : Nat := ((p.classes.take i).map (·.methods.length)).sum

/-- The dispatch tables are on the heap, and the outermost frame holds their addresses. -/
structure Tables (p : Program) (c : Config) : Prop where
  slot : ∀ (i : Nat) cls, p.classes[i]? = some cls → c.Holds (stackBase + View.offset i) (.ofNat (p.tableAt i))
  entry : ∀ (i j : Nat) cls m, p.classes[i]? = some cls → cls.methods[j]? = some m →
    ∃ t, (t, m.routine) ∈ p.placed ∧ c.Holds (.ofNat (p.tableAt i + j)) (.ofNat t)

theorem Tables.mono {p : Program} {c c' : Config} (h : Tables p c) (hc : c.Extends c') : Tables p c' := by
  refine ⟨fun i cls hi => (h.slot i cls hi).mono hc, fun i j cls m hi hj => ?_⟩
  obtain ⟨t, ht, hentry⟩ := h.entry i j cls m hi hj
  exact ⟨t, ht, hentry.mono hc⟩

/-- An object on the heap: the address of its dispatch table, and below it its fields. -/
structure Made (p : Program) (σ : Store) (heap : List Int32) (a : Int32) (o : Object) : Prop where
  place : ∃ h i : Nat, a = .ofNat h ∧ p.classes[i]? = some o.cls ∧
    heap[h]? = some (.ofNat (p.tableAt i)) ∧ o.fields.length ≤ h ∧
    ∀ (j : Nat) w, o.fields[j]? = some w → heap[h - 1 - j]? = some w
  count : o.fields.length = o.cls.fields.length
  types : ∀ (j : Nat) f w, o.cls.fields[j]? = some f → o.fields[j]? = some w → σ.Fits w f.type

theorem Made.mono {p : Program} {σ σ' : Store} {heap : List Int32} {a : Int32} {o : Object}
    (h : Made p σ heap a o) (hσ : σ.Extends σ') (more : List Int32) : Made p σ' (heap ++ more) a o := by
  have hget : ∀ (k : Nat) w, heap[k]? = some w → (heap ++ more)[k]? = some w := fun k w hk => by
    rw [List.getElem?_append_left (List.getElem?_eq_some_iff.mp hk).1, hk]
  obtain ⟨⟨h, i, ha, hi, htable, hle, hfields⟩, hcount, htypes⟩ := h
  exact ⟨⟨h, i, ha, hi, hget _ _ htable, hle, fun j w hj => hget _ _ (hfields j w hj)⟩, hcount,
    fun j f w hf hw => (htypes j f w hf hw).mono hσ⟩

/-- The heap and the output are those of a store. -/
structure World (p : Program) (σ : Store) (heap output : List Int32) : Prop where
  free : σ.free = heap.length
  output : σ.output = output
  made : ∀ a o, σ.object? a = some o → Made p σ heap a o

/-! ## Frames -/

section

variable (p : Program) (σ : Store) (c : Config)

/-- What stands for a variable in a frame, or for a method in an object. -/
inductive Entry (depth : Nat) (base : Int32) : String × Binding → String × Meaning → Prop
  | value {x : String} {b : Binding} {w : Int32} (hl : b.level = depth) (hm : b.isMethod = false)
    (ht : b.type.isValue = true) (hw : c.Holds (base + b.offset) w) (hf : σ.Fits w b.type) :
    Entry depth base (x, b) (x, .value w)
  | method {o : Object} {j : Nat} {m : Method} (hd : depth = 1) (ho : σ.object? base = some o)
    (hm : o.cls.methods[j]? = some m) :
    Entry depth base (m.header.name, ⟨1, .arrow m.header.signature, .ofNat j, true⟩)
      (m.header.name, .method base)

/--
What the names of a scope bind stands in the frame at a base. A class has no meaning in a scope. A
function sees the names declared up to itself.
-/
inductive Members (outer : List Names) (base : Int32) : Names → List (String × Meaning) → Prop
  | nil : Members outer base [] []
  | entry {x : String × Binding} {y : String × Meaning} {ns : Names} {sc : List (String × Meaning)}
    (head : Entry σ c outer.length base x y) (rest : Members outer base ns sc) :
    Members outer base (x :: ns) (y :: sc)
  | function {h : Header} {locals : List Decl} {body : Expr} {offset : Int32} {t : Nat} {ns : Names}
    {sc : List (String × Meaning)} (hc : c.Holds (base + offset) (.ofNat t))
    (ht : (t, ⟨h.params, locals, body⟩) ∈ p.placed)
    (hr : Routine.Sound p.classes
      ⟨(h.name, ⟨outer.length, .arrow h.signature, offset, false⟩) :: ns, outer, 0⟩
      ⟨h.params, locals, body⟩ h.result)
    (rest : Members outer base ns sc) :
    Members outer base ((h.name, ⟨outer.length, .arrow h.signature, offset, false⟩) :: ns)
      ((h.name, .function h locals body) :: sc)
  | cls {x : String} {b : Binding} {fs : List Ty} {ms : List Signature} {ns : Names}
    {sc : List (String × Meaning)} (hb : b.type = .cls fs ms) (rest : Members outer base ns sc) :
    Members outer base ((x, b) :: ns) sc

/--
The scopes of an environment stand in frames, the innermost one at a base. The outermost frame stands
at a fixed place, so only a frame with more than that around it needs its static link.
-/
inductive EnvAt : List Names → Env → Int32 → Prop
  | outermost {ns : Names} {sc : List (String × Meaning)} (h : Members p σ c [] stackBase ns sc) :
    EnvAt [ns] [sc] stackBase
  | inner {ns : Names} {sc : List (String × Meaning)} {outer : List Names} {ρ : Env} {base link : Int32}
    (h : Members p σ c outer base ns sc) (around : EnvAt outer ρ link)
    (hlink : 2 ≤ outer.length → c.Holds base link) : EnvAt (ns :: outer) (sc :: ρ) base

/-- One base leads to another through some static links. -/
def Linked : Nat → Int32 → Int32 → Prop
  | 0, a, b => a = b
  | n + 1, a, b => ∃ link, c.Holds a link ∧ Linked n link b

end

section

variable {p : Program} {σ σ' : Store} {c c' : Config} {base : Int32} {outer scopes : List Names} {ns : Names}
variable {sc : List (String × Meaning)} {ρ : Env} {x : String} {b : Binding}

theorem Entry.mono {depth : Nat} {x : String × Binding} {y : String × Meaning}
    (h : Entry σ c depth base x y) (hσ : σ.Extends σ') (hc : c.Extends c') :
    Entry σ' c' depth base x y := by
  cases h with
  | value hl hm ht hw hf => exact .value hl hm ht (hw.mono hc) (hf.mono hσ)
  | method hd ho hm => exact .method hd (hσ _ _ ho) hm

theorem Members.mono (h : Members p σ c outer base ns sc) (hσ : σ.Extends σ') (hc : c.Extends c') :
    Members p σ' c' outer base ns sc := by
  induction h with
  | nil => exact .nil
  | entry head _ ih => exact .entry (head.mono hσ hc) ih
  | function hh ht hr _ ih => exact .function (hh.mono hc) ht hr ih
  | cls hb _ ih => exact .cls hb ih

theorem EnvAt.mono (h : EnvAt p σ c scopes ρ base) (hσ : σ.Extends σ') (hc : c.Extends c') :
    EnvAt p σ' c' scopes ρ base := by
  induction h with
  | outermost h => exact .outermost (h.mono hσ hc)
  | inner h _ hlink ih => exact .inner (h.mono hσ hc) ih fun hn => (hlink hn).mono hc

/-! ## What is found -/

theorem Env.findIn?_self (x : String) (m : Meaning) (sc : List (String × Meaning)) :
    findIn? x ((x, m) :: sc) = some (m, (x, m) :: sc) := by simp [findIn?]

theorem Env.findIn?_ne {y : String} (h : (x == y) = false) (m : Meaning) (sc : List (String × Meaning)) :
    findIn? x ((y, m) :: sc) = findIn? x sc := by simp [findIn?, h]

theorem Members.find_none (h : Members p σ c outer base ns sc) (hx : ns.lookup x = none) :
    Env.findIn? x sc = none := by
  induction h with
  | nil => rfl
  | @entry z y ns sc head _ ih =>
    rw [List.lookup_cons] at hx
    split at hx
    · cases hx
    · rename_i hne
      have hname : y.1 = z.1 := by cases head <;> rfl
      rw [← hname] at hne
      obtain ⟨y, m⟩ := y
      rw [Env.findIn?_ne hne]
      exact ih hx
  | function _ _ _ _ ih =>
    rw [List.lookup_cons] at hx
    split at hx
    · cases hx
    · rename_i hne
      rw [Env.findIn?_ne hne]
      exact ih hx
  | cls _ _ ih =>
    rw [List.lookup_cons] at hx
    split at hx
    · cases hx
    · exact ih hx

theorem Members.find (h : Members p σ c outer base ns sc) (hx : ns.lookup x = some b)
    (hb : ∀ fs ms, b.type ≠ .cls fs ms) : ∃ m ns' sc', Env.findIn? x sc = some (m, (x, m) :: sc') ∧
      Members p σ c outer base ((x, b) :: ns') ((x, m) :: sc') := by
  induction h with
  | nil => cases hx
  | @entry z y ns sc head rest ih =>
    rw [List.lookup_cons] at hx
    have hname : y.1 = z.1 := by cases head <;> rfl
    obtain ⟨z, b'⟩ := z
    obtain ⟨y, m⟩ := y
    subst hname
    split at hx
    · rename_i heq
      cases hx
      have heq := beq_iff_eq.mp heq
      subst heq
      exact ⟨m, ns, sc, Env.findIn?_self _ _ _, .entry head rest⟩
    · rename_i hne
      rw [Env.findIn?_ne hne]
      exact ih hx
  | @function h locals body offset t ns sc hc ht hr rest ih =>
    rw [List.lookup_cons] at hx
    split at hx
    · rename_i heq
      cases hx
      have heq := beq_iff_eq.mp heq
      subst heq
      exact ⟨_, ns, sc, Env.findIn?_self _ _ _, .function hc ht hr rest⟩
    · rename_i hne
      rw [Env.findIn?_ne hne]
      exact ih hx
  | cls hcls _ ih =>
    rw [List.lookup_cons] at hx
    split at hx
    · cases hx
      exact absurd hcls (hb _ _)
    · exact ih hx

/-- What a name means, and where. -/
structure Found (p : Program) (σ : Store) (c : Config) (scopes : List Names) (ρ : Env) (base : Int32) (x : String)
    (b : Binding) (m : Meaning) (ns : Names) (sc : List (String × Meaning)) (outer : List Names) (ρ' : Env)
    (base' : Int32) : Prop where
  found : ρ.find? x = some (m, ((x, m) :: sc) :: ρ')
  members : Members p σ c outer base' ((x, b) :: ns) ((x, m) :: sc)
  env : EnvAt p σ c (((x, b) :: ns) :: outer) (((x, m) :: sc) :: ρ') base'
  level : b.level = outer.length
  lt : outer.length < scopes.length
  outermost : outer = [] → base' = stackBase
  linked : outer ≠ [] → Linked c (scopes.length - 1 - outer.length) base base'

/-- Where a name has a value, its slot holds it. -/
theorem Found.value {m : Meaning} {ρ' : Env} {base' : Int32}
    (h : Found p σ c scopes ρ base x b m ns sc outer ρ' base') (hb : b.type.isValue = true) :
    ∃ w, m = .value w ∧ c.Holds (base' + b.offset) w ∧ σ.Fits w b.type := by
  cases h.members with
  | entry head =>
    cases head with
    | value hl hm ht hw hf => exact ⟨_, rfl, hw, hf⟩
    | method => cases hb
  | function => cases hb
  | cls hcls => rw [hcls] at hb; cases hb

/-- The frame of what a name means is reached from a use of the name. -/
theorem Found.reach {v : View} {m : Meaning} {ρ' : Env} {base' : Int32}
    (h : Found p σ c v.scopes ρ base x b m ns sc outer ρ' base') :
    (b.level = 0 → base' = stackBase) ∧ (b.level ≠ 0 → Linked c (v.depth - b.level) base base') := by
  refine ⟨fun hlevel => h.outermost ?_, fun hlevel => ?_⟩
  · rw [h.level] at hlevel
    exact List.length_eq_zero_iff.mp hlevel
  · rw [h.level] at hlevel ⊢
    exact h.linked fun hnil => hlevel (by rw [hnil]; rfl)

theorem Members.level {m : Meaning} (h : Members p σ c outer base ((x, b) :: ns) ((x, m) :: sc))
    (hb : ∀ fs ms, b.type ≠ .cls fs ms) : b.level = outer.length := by
  cases h with
  | entry head _ =>
    cases head with
    | value hl => exact hl
    | method hd => exact hd.symm
  | function => rfl
  | cls hcls _ => exact absurd hcls (hb _ _)

/-- The innermost declaration of a name says what it means, and links lead to its frame. -/
theorem EnvAt.find (h : EnvAt p σ c scopes ρ base) (hx : scopes.findSome? (·.lookup x) = some b)
    (hb : ∀ fs ms, b.type ≠ .cls fs ms) :
    ∃ m ns sc outer ρ' base', Found p σ c scopes ρ base x b m ns sc outer ρ' base' := by
  induction h with
  | @outermost ns sc h =>
    rw [List.findSome?_cons] at hx
    cases hn : ns.lookup x with
    | none => rw [hn] at hx; cases hx
    | some b' =>
      rw [hn] at hx
      cases hx
      obtain ⟨m, ns', sc', hfind, hmembers⟩ := h.find hn hb
      refine ⟨m, ns', sc', [], [], stackBase, ?_, hmembers, .outermost hmembers, hmembers.level hb,
        by simp, fun _ => rfl, fun hne => absurd rfl hne⟩
      rw [Env.find?, hfind]
  | @inner ns sc outer ρ base link h around hlink ih =>
    rw [List.findSome?_cons] at hx
    cases hn : ns.lookup x with
    | some b' =>
      rw [hn] at hx
      cases hx
      obtain ⟨m, ns', sc', hfind, hmembers⟩ := h.find hn hb
      refine ⟨m, ns', sc', outer, ρ, base, ?_, hmembers, .inner hmembers around hlink, hmembers.level hb,
        by simp, ?_, fun _ => ?_⟩
      · rw [Env.find?, hfind]
      · rintro rfl
        cases around
      · rw [List.length_cons, Nat.add_sub_cancel, Nat.sub_self]
        rfl
    | none =>
      rw [hn] at hx
      obtain ⟨m, ns', sc', outer', ρ', base', hfound⟩ := ih hx
      have hlt := hfound.lt
      refine ⟨m, ns', sc', outer', ρ', base', ?_, hfound.members, hfound.env, hfound.level, ?_,
        hfound.outermost, fun hne => ?_⟩
      · rw [Env.find?, h.find_none hn]
        exact hfound.found
      · rw [List.length_cons]; omega
      · have hpos := List.length_pos_iff.mpr hne
        have hhops : (ns :: outer).length - 1 - outer'.length = (outer.length - 1 - outer'.length) + 1 := by
          rw [List.length_cons]; omega
        rw [hhops]
        exact ⟨link, hlink (by omega), hfound.linked hne⟩

end

end FoolLang
