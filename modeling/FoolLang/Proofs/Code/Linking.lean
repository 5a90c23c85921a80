/-
Linking, told by places: code whose labels are distinct and defined links, and every instruction then
stands at the address that the number of proper instructions before it says.
-/
import FoolLang.Machine.Link
import FoolLang.Proofs.Code.Layout
import FoolLang.Proofs.Sequencing
import Mathlib.Algebra.Ring.Nat
import Mathlib.Data.List.Basic

namespace FoolLang.Machine

/-- How many proper instructions some code has. -/
def width : List Instruction → Nat
  | [] => 0
  | .label _ :: code => width code
  | .plain _ :: code | .push _ :: code | .pushLabel _ :: code | .jump _ _ :: code => width code + 1

/-- The labels that stand in some code. -/
def defined : List Instruction → List String
  | [] => []
  | .label l :: code => l :: defined code
  | .plain _ :: code | .push _ :: code | .pushLabel _ :: code | .jump _ _ :: code => defined code

/-- The labels that some code refers to. -/
def wanted : List Instruction → List String
  | [] => []
  | .pushLabel l :: code | .jump _ l :: code => l :: wanted code
  | .plain _ :: code | .push _ :: code | .label _ :: code => wanted code

/-- The labels whose addresses some code pushes. -/
def pushed : List Instruction → List String
  | [] => []
  | .pushLabel l :: code => l :: pushed code
  | .plain _ :: code | .push _ :: code | .label _ :: code | .jump _ _ :: code => pushed code

/-- Every jump in some code goes to a label behind it, in the code or among some more that follow it. -/
def Forward (more : List String) : List Instruction → Prop
  | [] => True
  | .jump _ l :: code => (l ∈ defined code ∨ l ∈ more) ∧ Forward more code
  | .plain _ :: code | .push _ :: code | .pushLabel _ :: code | .label _ :: code => Forward more code

variable {table : List (String × Nat)} {ops : Array Op} {a t : Nat} {is js : List Instruction} {l : String} {j : Jump}

@[simp] theorem width_append (is js : List Instruction) : width (is ++ js) = width is + width js := by
  induction is with
  | nil => simp [width]
  | cons i is ih => cases i <;> simp [width, ih] <;> omega

@[simp] theorem defined_append (is js : List Instruction) :
    defined (is ++ js) = defined is ++ defined js := by
  induction is with
  | nil => rfl
  | cons i is ih => cases i <;> simp [defined, ih]

@[simp] theorem wanted_append (is js : List Instruction) : wanted (is ++ js) = wanted is ++ wanted js := by
  induction is with
  | nil => rfl
  | cons i is ih => cases i <;> simp [wanted, ih]

@[simp] theorem pushed_append (is js : List Instruction) : pushed (is ++ js) = pushed is ++ pushed js := by
  induction is with
  | nil => rfl
  | cons i is ih => cases i <;> simp [pushed, ih]

theorem Forward.mono {more more' : List String} (hm : ∀ l ∈ more, l ∈ more') :
    ∀ {c : List Instruction}, Forward more c → Forward more' c
  | [], _ => trivial
  | .jump _ _ :: _, ⟨hl, h⟩ => ⟨hl.imp_right (hm _), h.mono hm⟩
  | .plain _ :: is, h | .push _ :: is, h | .pushLabel _ :: is, h | .label _ :: is, h => Forward.mono (c := is) hm h

/-- Jumps of the first part of some code may go to the labels of the second. -/
theorem forward_append {more : List String} (js : List Instruction) : ∀ is : List Instruction,
    Forward more (is ++ js) ↔ Forward (defined js ++ more) is ∧ Forward more js
  | [] => by simp [Forward]
  | .jump _ _ :: is => by
    simp only [List.cons_append, Forward, defined_append, List.mem_append, forward_append js is, and_assoc, or_assoc]
  | .plain _ :: is | .push _ :: is | .pushLabel _ :: is | .label _ :: is => forward_append js is

/-- Code that refers to no labels has no jumps. -/
theorem forward_of_wanted {more : List String} : ∀ {c : List Instruction}, wanted c = [] → Forward more c
  | [], _ => trivial
  | .plain _ :: is, h | .push _ :: is, h | .label _ :: is, h => forward_of_wanted (c := is) h

theorem pushed_sublist_wanted : ∀ is : List Instruction, (pushed is).Sublist (wanted is)
  | [] => .slnil
  | .pushLabel _ :: is => (pushed_sublist_wanted is).cons_cons _
  | .jump _ _ :: is => (pushed_sublist_wanted is).cons _
  | .plain _ :: is | .push _ :: is | .label _ :: is => pushed_sublist_wanted is

/-! ## Places -/

/-- Code stands in its linked form from an address on, where a table says what its labels mean. -/
def Placed (table : List (String × Nat)) (ops : Array Op) (a : Nat) : List Instruction → Prop
  | [] => True
  | .label l :: code => table.lookup l = some a ∧ Placed table ops a code
  | .plain p :: code => ops[a]? = some (.plain p) ∧ Placed table ops (a + 1) code
  | .push n :: code => ops[a]? = some (.push n) ∧ Placed table ops (a + 1) code
  | .pushLabel l :: code =>
    (∃ t, table.lookup l = some t ∧ ops[a]? = some (.push (.ofNat t))) ∧ Placed table ops (a + 1) code
  | .jump j l :: code =>
    (∃ t, table.lookup l = some t ∧ ops[a]? = some (.jump j t)) ∧ Placed table ops (a + 1) code

theorem placed_append (is js : List Instruction) : ∀ a, Placed table ops a (is ++ js) ↔
    Placed table ops a is ∧ Placed table ops (a + width is) js := by
  induction is with
  | nil => intro a; simp [Placed, width]
  | cons i is ih =>
    intro a
    cases i <;> simp only [List.cons_append, Placed, width, ih, and_assoc] <;>
      simp only [Nat.add_assoc, Nat.add_comm 1]

/-- Code that neither has labels nor refers to any stands as it is. -/
theorem Placed.stands (is : List Instruction) : ∀ a, defined is = [] → wanted is = [] →
    Placed table ops a is → Stands ops a (Code.ops is) := by
  induction is with
  | nil => exact fun _ _ _ _ => trivial
  | cons i is ih =>
    intro a hd hw h
    match i, hd, hw, h with
    | .plain p, hd, hw, ⟨hp, h⟩ => exact ⟨hp, ih _ hd hw h⟩
    | .push n, hd, hw, ⟨hn, h⟩ => exact ⟨hn, ih _ hd hw h⟩

/-- The labels of placed code stand in it or right behind it. -/
theorem Placed.defined_bounds : ∀ {c : List Instruction} {a : Nat}, Placed table ops a c → ∀ l ∈ defined c,
    ∃ t, table.lookup l = some t ∧ a ≤ t ∧ t ≤ a + width c
  | [], _, _ => fun _ hl => (List.not_mem_nil hl).elim
  | .label l :: is, a, ⟨hl, h⟩ => by
    intro l' hl'
    rcases List.mem_cons.mp hl' with rfl | hl'
    · exact ⟨a, hl, Nat.le_refl a, Nat.le_add_right a _⟩
    · exact h.defined_bounds l' hl'
  | .plain _ :: is, a, ⟨_, h⟩ | .push _ :: is, a, ⟨_, h⟩ | .pushLabel _ :: is, a, ⟨_, h⟩
  | .jump _ _ :: is, a, ⟨_, h⟩ => by
    intro l' hl'
    obtain ⟨t, ht, hlow, hhigh⟩ := Placed.defined_bounds (c := is) h l' hl'
    simp only [width]
    exact ⟨t, ht, by omega, by omega⟩

/-- A jump of placed code without backward jumps goes to a higher address, at most right behind the code. -/
theorem Forward.bounds : ∀ {c : List Instruction} {a : Nat}, Forward [] c → Placed table ops a c →
    ∀ x, a ≤ x → x < a + width c → ops[x]? = some (.jump j t) → x < t ∧ t ≤ a + width c
  | [], a, _, _, x, hlow, hhigh, _ => by
    simp only [width] at hhigh
    omega
  | .label _ :: is, a, hf, ⟨_, h⟩, x, hlow, hhigh, hx => Forward.bounds (c := is) hf h x hlow hhigh hx
  | .plain _ :: is, a, hf, ⟨hop, h⟩, x, hlow, hhigh, hx | .push _ :: is, a, hf, ⟨hop, h⟩, x, hlow, hhigh, hx
  | .pushLabel _ :: is, a, hf, ⟨⟨_, _, hop⟩, h⟩, x, hlow, hhigh, hx => by
    simp only [width] at hhigh ⊢
    rcases Nat.eq_or_lt_of_le hlow with rfl | hlt
    · rw [hop] at hx
      cases hx
    · have hrest := Forward.bounds (c := is) hf h x hlt (by omega) hx
      omega
  | .jump _ l :: is, a, ⟨hl, hf⟩, ⟨⟨u, hu, hop⟩, h⟩, x, hlow, hhigh, hx => by
    simp only [width] at hhigh ⊢
    rcases Nat.eq_or_lt_of_le hlow with rfl | hlt
    · rw [hop] at hx
      cases hx
      obtain ⟨u, hu', hlow, hhigh⟩ := h.defined_bounds l (hl.resolve_right List.not_mem_nil)
      rw [hu] at hu'
      cases hu'
      omega
    · have hrest := Forward.bounds (c := is) hf h x hlt (by omega) hx
      omega

/-! ## Linking -/

theorem labels_map (is : List Instruction) : ∀ a, (labels is a).map (·.1) = defined is := by
  induction is with
  | nil => exact fun _ => rfl
  | cons i is ih => intro a; cases i <;> simp [labels, defined, ih]

theorem firstRepeated?_eq_none (ls : List String) : ∀ seen, ls.Nodup → (∀ l ∈ ls, l ∉ seen) →
    firstRepeated? ls seen = none := by
  induction ls with
  | nil => exact fun _ _ _ => rfl
  | cons l ls ih =>
    intro seen hn hs
    obtain ⟨hl, hn⟩ := List.nodup_cons.mp hn
    rw [firstRepeated?, if_neg (hs l List.mem_cons_self)]
    refine ih (l :: seen) hn fun m hm hmem => ?_
    rcases List.mem_cons.mp hmem with rfl | hmem
    · exact hl hm
    · exact hs m (List.mem_cons_of_mem _ hm) hmem

theorem lookup_of_mem {table : List (String × Nat)} (hn : (table.map (·.1)).Nodup) {x : String × Nat}
    (hx : x ∈ table) : table.lookup x.1 = some x.2 := by
  induction table with
  | nil => cases hx
  | cons y table ih =>
    rw [List.map_cons, List.nodup_cons] at hn
    rcases List.mem_cons.mp hx with rfl | hx
    · exact List.lookup_cons_self
    · have hne : (x.1 == y.1) = false := by
        rw [beq_eq_false_iff_ne]
        exact fun he => hn.1 (he ▸ List.mem_map_of_mem hx)
      rw [List.lookup_cons, hne]
      exact ih hn.2 hx

/-- Where a table knows the labels of some code, and those it refers to, the code links and stands. -/
theorem resolveLabels_placed (is : List Instruction) : ∀ a, (∀ x ∈ labels is a, table.lookup x.1 = some x.2) →
    (∀ l ∈ wanted is, (table.lookup l).isSome) → ∃ more, resolveLabels table is = .ok more ∧
      more.length = width is ∧ ∀ before behind : List Op, before.length = a →
        Placed table (before ++ (more ++ behind)).toArray a is := by
  induction is with
  | nil => exact fun _ _ _ => ⟨[], rfl, rfl, fun _ _ _ => trivial⟩
  | cons i is ih =>
    have hrest : ∀ a op, (∀ x ∈ labels is (a + 1), table.lookup x.1 = some x.2) →
        (∀ l ∈ wanted is, (table.lookup l).isSome) → ∃ more, resolveLabels table is = .ok more ∧
        (op :: more).length = width is + 1 ∧ ∀ before behind : List Op, before.length = a →
          (before ++ (op :: more ++ behind)).toArray[a]? = some op ∧
            Placed table (before ++ (op :: more ++ behind)).toArray (a + 1) is := by
      intro a op hl hw
      obtain ⟨more, hmore, hlen, hplaced⟩ := ih (a + 1) hl hw
      refine ⟨more, hmore, congrArg (· + 1) hlen, fun before behind hb => ⟨?_, ?_⟩⟩
      · simp [← hb]
      · simpa using hplaced (before ++ [op]) behind (by simp [hb])
    intro a hl hw
    cases i with
    | label l =>
      obtain ⟨more, hmore, hlen, hplaced⟩ := ih a (fun x hx => hl x (List.mem_cons_of_mem _ hx)) hw
      exact ⟨more, hmore, hlen, fun before behind hb => ⟨hl (l, a) List.mem_cons_self, hplaced before behind hb⟩⟩
    | plain p =>
      obtain ⟨more, hmore, hlen, hplaced⟩ := hrest a (.plain p) hl hw
      exact ⟨_, by rw [resolveLabels, hmore]; rfl, hlen, hplaced⟩
    | push n =>
      obtain ⟨more, hmore, hlen, hplaced⟩ := hrest a (.push n) hl hw
      exact ⟨_, by rw [resolveLabels, hmore]; rfl, hlen, hplaced⟩
    | pushLabel l =>
      obtain ⟨t, ht⟩ := Option.isSome_iff_exists.mp (hw l List.mem_cons_self)
      obtain ⟨more, hmore, hlen, hplaced⟩ :=
        hrest a (.push (.ofNat t)) hl fun m hm => hw m (List.mem_cons_of_mem _ hm)
      exact ⟨_, by rw [resolveLabels, address, ht, hmore]; rfl, hlen, fun before behind hb =>
        ⟨⟨t, ht, (hplaced before behind hb).1⟩, (hplaced before behind hb).2⟩⟩
    | jump j l =>
      obtain ⟨t, ht⟩ := Option.isSome_iff_exists.mp (hw l List.mem_cons_self)
      obtain ⟨more, hmore, hlen, hplaced⟩ :=
        hrest a (.jump j t) hl fun m hm => hw m (List.mem_cons_of_mem _ hm)
      exact ⟨_, by rw [resolveLabels, address, ht, hmore]; rfl, hlen, fun before behind hb =>
        ⟨⟨t, ht, (hplaced before behind hb).1⟩, (hplaced before behind hb).2⟩⟩

/-- Code links if its labels are distinct and it refers to no others. -/
theorem link_placed (hn : (defined is).Nodup) (hw : ∀ l ∈ wanted is, l ∈ defined is) :
    ∃ ops, link is = .ok ops ∧ ops.size = width is ∧ Placed (labels is 0) ops 0 is := by
  have hlabels : ∀ x ∈ labels is 0, (labels is 0).lookup x.1 = some x.2 := fun x hx =>
    lookup_of_mem (by rw [labels_map]; exact hn) hx
  have hwanted : ∀ l ∈ wanted is, ((labels is 0).lookup l).isSome := by
    intro l hl
    have hl := hw l hl
    rw [← labels_map is 0] at hl
    obtain ⟨x, hx, rfl⟩ := List.mem_map.mp hl
    rw [hlabels x hx]; rfl
  obtain ⟨more, hmore, hlen, hplaced⟩ := resolveLabels_placed is 0 hlabels hwanted
  refine ⟨more.toArray, ?_, hlen, by simpa using hplaced [] [] rfl⟩
  rw [link, labels_map, firstRepeated?_eq_none _ [] hn (by simp), hmore]
  rfl

theorem resolveLabels_length : ∀ (is : List Instruction) {more : List Op}, resolveLabels table is = .ok more →
    more.length = width is
  | [], _, h => by cases h; rfl
  | .label _ :: is, _, h => resolveLabels_length is h
  | .plain _ :: is, _, h | .push _ :: is, _, h => by
    obtain ⟨rest, hrest, h⟩ := Sequencing.except_bind_ok h
    cases h
    exact congrArg (· + 1) (resolveLabels_length is hrest)
  | .pushLabel _ :: is, _, h | .jump _ _ :: is, _, h => by
    obtain ⟨t, -, h⟩ := Sequencing.except_bind_ok h
    obtain ⟨rest, hrest, h⟩ := Sequencing.except_bind_ok h
    cases h
    exact congrArg (· + 1) (resolveLabels_length is hrest)

/-- Linked code has an instruction for each one that is not a label. -/
theorem link_size (h : link is = .ok ops) : ops.size = width is := by
  simp only [link] at h
  split at h
  · cases h
  · cases hmore : resolveLabels (labels is 0) is with
    | error e => rw [hmore] at h; cases h
    | ok more =>
      rw [hmore] at h
      cases h
      exact resolveLabels_length is hmore

end FoolLang.Machine

namespace FoolLang

open Machine

/-! ## Code without labels -/

/-- Code that neither has labels nor refers to any. -/
def Flat (is : List Instruction) : Prop := defined is = [] ∧ wanted is = []

theorem Flat.append {is js : List Instruction} (h : Flat is) (h' : Flat js) : Flat (is ++ js) :=
  ⟨by simp [h.1, h'.1], by simp [h.2, h'.2]⟩

theorem Flat.replicate (n : Nat) (p : Plain) : Flat (List.replicate n (.plain p)) := by
  induction n with
  | zero => exact ⟨rfl, rfl⟩
  | succ n ih => exact ih

theorem Flat.width {is : List Instruction} (h : Flat is) : width is = is.length := by
  obtain ⟨hd, hw⟩ := h
  induction is with
  | nil => rfl
  | cons i is ih =>
    match i, hd, hw with
    | .plain p, hd, hw => exact congrArg (· + 1) (ih hd hw)
    | .push n, hd, hw => exact congrArg (· + 1) (ih hd hw)

theorem Flat.ops_length {is : List Instruction} (h : Flat is) : (Code.ops is).length = is.length := by
  obtain ⟨hd, hw⟩ := h
  induction is with
  | nil => rfl
  | cons i is ih =>
    match i, hd, hw with
    | .plain p, hd, hw => exact congrArg (· + 1) (ih hd hw)
    | .push n, hd, hw => exact congrArg (· + 1) (ih hd hw)

theorem Code.flat_frameOf (r : Resolution) : Flat (frameOf r) := by
  unfold frameOf
  split
  · exact ⟨rfl, rfl⟩
  · have hfp : Flat [load .fp] := ⟨rfl, rfl⟩
    exact hfp.append (.replicate _ _)

theorem Code.flat_slotOf (r : Resolution) : Flat (slotOf r) := by
  unfold slotOf
  split
  · exact ⟨rfl, rfl⟩
  · exact ((flat_frameOf r).append ⟨rfl, rfl⟩).append ⟨rfl, rfl⟩

theorem Code.flat_callOf (r : Resolution) : Flat (callOf r) := by
  have hdispatch : Flat (if r.entry.isMethod then [.plain .loadWord] else []) := by
    split <;> exact ⟨rfl, rfl⟩
  exact (((flat_frameOf r).append ⟨rfl, rfl⟩).append hdispatch).append ⟨rfl, rfl⟩

theorem Code.flat_allocateAll (n : Nat) : Flat (List.replicate n allocate).flatten := by
  have hfield : Flat allocate := ⟨rfl, rfl⟩
  induction n with
  | zero => exact ⟨rfl, rfl⟩
  | succ n ih => exact hfield.append ih

theorem Code.flat_object (n : Nat) (offset : Int32) : Flat (object n offset) :=
  (((flat_allocateAll n).append ⟨rfl, rfl⟩).append ⟨rfl, rfl⟩).append ⟨rfl, rfl⟩

theorem Code.flat_epilogue (params locals : Nat) : Flat (epilogue params locals) :=
  (((Flat.append ⟨rfl, rfl⟩ (.replicate _ _)).append ⟨rfl, rfl⟩).append (.replicate _ _)).append ⟨rfl, rfl⟩

end FoolLang
