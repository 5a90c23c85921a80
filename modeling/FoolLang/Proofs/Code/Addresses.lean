/-
What linking makes of code, told without its tables: which label it refuses, and otherwise the instruction that
stands for each proper one. Labels count only by the places they name, so neither an injective renaming of them
nor the order of labels that stand together shows in linked code.
-/
import FoolLang.Proofs.Code.Linking
import Mathlib.Data.List.Forall2
import Mathlib.Data.List.Nodup
import Mathlib.Data.Set.Function

namespace FoolLang.Machine

variable {is js : List Instruction} {ops : Array Op} {l m : String} {a n : Nat} {table : List (String × Nat)}
  {stands stands' : String → Nat → Prop} {f : String → String}

/-! ## Instructions and what stands for them -/

/-- Whether an instruction only names an address. -/
def Instruction.isLabel : Instruction → Bool
  | .label _ => true
  | .plain _ | .push _ | .pushLabel _ | .jump _ _ => false

/-- The proper instructions of some code. -/
def proper (is : List Instruction) : List Instruction := is.filter fun i => !i.isLabel

/-- A label stands in some code, behind so many proper instructions. -/
def Names (is : List Instruction) (l : String) (a : Nat) : Prop :=
  ∃ before behind, is = before ++ .label l :: behind ∧ (proper before).length = a

/-- The linked form of a proper instruction, where a relation says which addresses its label may have. -/
inductive LinksTo (stands : String → Nat → Prop) : Instruction → Op → Prop
  | plain (p : Plain) : LinksTo stands (.plain p) (.plain p)
  | push (n : Int32) : LinksTo stands (.push n) (.push n)
  | pushLabel {l : String} {a : Nat} (h : stands l a) : LinksTo stands (.pushLabel l) (.push (.ofNat a))
  | jump (j : Jump) {l : String} {a : Nat} (h : stands l a) : LinksTo stands (.jump j l) (.jump j a)

@[simp] theorem proper_append (is js : List Instruction) : proper (is ++ js) = proper is ++ proper js :=
  List.filter_append is js

theorem length_proper (is : List Instruction) : (proper is).length = width is := by
  induction is with
  | nil => rfl
  | cons i is ih => cases i <;> simpa [proper, Instruction.isLabel, width] using ih

theorem LinksTo.mono (h : ∀ l a, stands l a → stands' l a) {i : Instruction} {op : Op} (ho : LinksTo stands i op) :
    LinksTo stands' i op := by
  cases ho with
  | plain p => exact .plain p
  | push n => exact .push n
  | pushLabel hl => exact .pushLabel (h _ _ hl)
  | jump j hl => exact .jump j (h _ _ hl)

/-! ## Tables -/

theorem labels_append (is js : List Instruction) :
    ∀ n, labels (is ++ js) n = labels is n ++ labels js (n + width is) := by
  induction is with
  | nil => exact fun _ => rfl
  | cons i is ih =>
    intro n
    cases i <;> simp only [List.cons_append, labels, width, ih] <;> simp only [Nat.add_assoc, Nat.add_comm 1]

theorem mem_labels : (l, a) ∈ labels is 0 ↔ Names is l a := by
  have hfrom : ∀ (is : List Instruction) (n : Nat), (l, a) ∈ labels is n →
      ∃ before behind, is = before ++ .label l :: behind ∧ n + width before = a := by
    intro is
    induction is with
    | nil => exact fun _ h => (List.not_mem_nil h).elim
    | cons i is ih =>
      intro n h
      cases i with
      | label k =>
        rcases List.mem_cons.mp h with heq | h
        · cases heq
          exact ⟨[], is, rfl, rfl⟩
        · obtain ⟨before, behind, rfl, hw⟩ := ih n h
          exact ⟨.label k :: before, behind, rfl, hw⟩
      | plain | push | pushLabel | jump =>
        obtain ⟨before, behind, rfl, hw⟩ := ih (n + 1) h
        exact ⟨_ :: before, behind, rfl, by simp only [width]; omega⟩
  constructor
  · intro h
    obtain ⟨before, behind, rfl, hw⟩ := hfrom is 0 h
    exact ⟨before, behind, rfl, by rw [length_proper]; omega⟩
  · rintro ⟨before, behind, rfl, rfl⟩
    rw [labels_append, length_proper, Nat.zero_add]
    exact List.mem_append_right _ List.mem_cons_self

theorem lookup_labels (hn : (defined is).Nodup) : (labels is 0).lookup l = some a ↔ Names is l a := by
  rw [← mem_labels]
  constructor
  · intro h
    obtain ⟨before, behind, heq, -⟩ := List.lookup_eq_some_iff.mp h
    rw [heq]
    exact List.mem_append_right _ List.mem_cons_self
  · exact fun h => lookup_of_mem (by rw [labels_map]; exact hn) h

theorem lookup_labels_eq_none : (labels is 0).lookup l = none ↔ l ∉ defined is := by
  rw [List.lookup_eq_none_iff, ← labels_map is 0, List.mem_map]
  constructor
  · rintro h ⟨x, hx, rfl⟩
    simpa using h x hx
  · intro h x hx
    simpa using fun heq : l = x.1 => h ⟨x, hx, heq.symm⟩

theorem lookup_labels_ne_none : (labels is 0).lookup l ≠ none ↔ l ∈ defined is := by
  rw [ne_eq, lookup_labels_eq_none, not_not]

/-! ## The two passes -/

theorem firstRepeated?_eq_some (ls : List String) : ∀ seen, firstRepeated? ls seen = some l ↔
    ∃ before after, ls = before ++ l :: after ∧ before.Nodup ∧ (∀ m ∈ before, m ∉ seen) ∧ (l ∈ before ∨ l ∈ seen) := by
  induction ls with
  | nil =>
    intro seen
    simp [firstRepeated?]
  | cons k ls ih =>
    intro seen
    unfold firstRepeated?
    split
    · next hk =>
      constructor
      · rintro ⟨⟩
        exact ⟨[], ls, rfl, List.nodup_nil, by simp, .inr hk⟩
      · rintro ⟨before, after, heq, -, hseen, hl⟩
        -- A label already seen stands first, so nothing stands before the one refused.
        cases before with
        | nil => cases heq; rfl
        | cons b before => cases heq; exact absurd hk (hseen _ List.mem_cons_self)
    · next hk =>
      rw [ih (k :: seen)]
      constructor
      · rintro ⟨before, after, rfl, hn, hseen, hl⟩
        refine ⟨k :: before, after, rfl, ?_, ?_, ?_⟩
        · exact List.nodup_cons.mpr ⟨fun h => hseen k h List.mem_cons_self, hn⟩
        · intro m hm
          rcases List.mem_cons.mp hm with rfl | hm
          · exact hk
          · exact fun h => hseen m hm (List.mem_cons_of_mem _ h)
        · simpa [or_assoc, or_left_comm] using hl
      · rintro ⟨before, after, heq, hn, hseen, hl⟩
        cases before with
        | nil =>
          cases heq
          exact absurd (hl.resolve_left List.not_mem_nil) hk
        | cons b before =>
          cases heq
          obtain ⟨hb, hn⟩ := List.nodup_cons.mp hn
          refine ⟨before, after, rfl, hn, fun m hm hmem => ?_, by simpa [or_assoc, or_left_comm] using hl⟩
          rcases List.mem_cons.mp hmem with rfl | hmem
          · exact hb hm
          · exact hseen m (List.mem_cons_of_mem _ hm) hmem

theorem nodup_of_firstRepeated? (ls : List String) : ∀ seen, firstRepeated? ls seen = none →
    ls.Nodup ∧ ∀ m ∈ ls, m ∉ seen := by
  induction ls with
  | nil => exact fun _ _ => ⟨List.nodup_nil, by simp⟩
  | cons k ls ih =>
    intro seen h
    unfold firstRepeated? at h
    split at h
    · cases h
    · next hk =>
      obtain ⟨hn, hseen⟩ := ih (k :: seen) h
      constructor
      · exact List.nodup_cons.mpr ⟨fun hmem => hseen k hmem List.mem_cons_self, hn⟩
      · intro m hm
        rcases List.mem_cons.mp hm with rfl | hm
        · exact hk
        · exact fun hmem => hseen m hm (List.mem_cons_of_mem _ hmem)

/-- An instruction that wants a label fails where the table does not have it, and else where what follows fails. -/
theorem address_bind_eq_error {op : Nat → Op} {rest : Except LinkError (List Op)} {e : LinkError} :
    (do return op (← address table l) :: (← rest)) = Except.error e ↔
      table.lookup l = none ∧ e = .unknownLabel l ∨ table.lookup l ≠ none ∧ rest = .error e := by
  unfold address
  cases table.lookup l <;> cases rest <;> simp [bind, Except.bind, pure, Except.pure, eq_comm]

theorem address_bind_eq_ok {op : Nat → Op} {rest : Except LinkError (List Op)} {more : List Op} :
    (do return op (← address table l) :: (← rest)) = Except.ok more ↔
      ∃ a tail, table.lookup l = some a ∧ rest = .ok tail ∧ more = op a :: tail := by
  unfold address
  cases table.lookup l <;> cases rest <;> simp [bind, Except.bind, pure, Except.pure, eq_comm]

/-- The second pass fails at the first label wanted that the table does not have. -/
theorem resolveLabels_eq_error {e : LinkError} (is : List Instruction) : resolveLabels table is = .error e ↔
    ∃ l before after, e = .unknownLabel l ∧ wanted is = before ++ l :: after ∧
      (∀ m ∈ before, table.lookup m ≠ none) ∧ table.lookup l = none := by
  induction is with
  | nil => simp [resolveLabels, wanted]
  | cons i is ih =>
    cases i with
    | label => exact ih
    | plain | push =>
      rw [wanted, ← ih, resolveLabels]
      cases resolveLabels table is <;> simp [bind, Except.bind, pure, Except.pure]
    | pushLabel k | jump _ k =>
      rw [resolveLabels, address_bind_eq_error, ih, wanted]
      constructor
      · rintro (⟨hk, rfl⟩ | ⟨hk, l, before, after, rfl, hw, hb, hl⟩)
        · exact ⟨k, [], _, rfl, rfl, by simp, hk⟩
        · exact ⟨l, k :: before, after, rfl, congrArg (k :: ·) hw, List.forall_mem_cons.mpr ⟨hk, hb⟩, hl⟩
      · rintro ⟨l, before, after, rfl, hw, hb, hl⟩
        cases before with
        | nil => cases hw; exact .inl ⟨hl, rfl⟩
        | cons b before =>
          obtain ⟨rfl, hrest⟩ := List.cons.inj hw
          obtain ⟨hk, hb⟩ := List.forall_mem_cons.mp hb
          exact .inr ⟨hk, l, before, after, rfl, hrest, hb, hl⟩

/-- The second pass succeeds with the instructions that stand for the proper ones. -/
theorem resolveLabels_eq_ok (is : List Instruction) : ∀ more, resolveLabels table is = .ok more ↔
    List.Forall₂ (LinksTo fun l a => table.lookup l = some a) (proper is) more := by
  induction is with
  | nil =>
    intro more
    constructor
    · rintro ⟨⟩; exact .nil
    · rintro ⟨⟩; rfl
  | cons i is ih =>
    intro more
    cases i with
    | label => exact ih more
    | plain p | push n =>
      constructor
      · intro h
        obtain ⟨tail, htail, h⟩ := Sequencing.except_bind_ok h
        cases h
        exact .cons (by constructor) ((ih tail).mp htail)
      · rintro (_ | ⟨hop, htail⟩)
        cases hop
        rw [resolveLabels, (ih _).mpr htail]
        rfl
    | pushLabel k | jump j k =>
      rw [resolveLabels, address_bind_eq_ok]
      constructor
      · rintro ⟨a, tail, hk, htail, rfl⟩
        exact .cons (by constructor; exact hk) ((ih tail).mp htail)
      · rintro (_ | ⟨hop, htail⟩)
        cases hop
        rename_i hk
        exact ⟨_, _, hk, (ih _).mpr htail, rfl⟩

/-! ## Linking -/

theorem link_eq_duplicateLabel : link is = .error (.duplicateLabel l) ↔
    ∃ before after, defined is = before ++ l :: after ∧ before.Nodup ∧ l ∈ before := by
  have hfirst := firstRepeated?_eq_some (l := l) (defined is) []
  simp only [List.not_mem_nil, not_false_eq_true, implies_true, true_and, or_false] at hfirst
  rw [← hfirst, link, labels_map]
  cases hrep : firstRepeated? (defined is) [] with
  | some k => simp
  | none =>
    -- The second pass refuses nothing but unknown labels.
    cases hres : resolveLabels (labels is 0) is with
    | ok more => simp [Except.map]
    | error e =>
      obtain ⟨k, -, -, rfl, -⟩ := (resolveLabels_eq_error is).mp hres
      simp [Except.map]

theorem link_of_nodup (hn : (defined is).Nodup) : link is = (resolveLabels (labels is 0) is).map List.toArray := by
  rw [link, labels_map, firstRepeated?_eq_none _ [] hn (by simp)]

theorem nodup_of_link (h : ∀ l, link is ≠ .error (.duplicateLabel l)) : (defined is).Nodup := by
  cases hrep : firstRepeated? (defined is) [] with
  | some k => exact absurd (by rw [link, labels_map, hrep]) (h k)
  | none => exact (nodup_of_firstRepeated? _ [] hrep).1

theorem link_eq_unknownLabel : link is = .error (.unknownLabel l) ↔ (defined is).Nodup ∧
    ∃ before after, wanted is = before ++ l :: after ∧ (∀ m ∈ before, m ∈ defined is) ∧ l ∉ defined is := by
  constructor
  · intro h
    have hn := nodup_of_link fun k hk => by rw [h] at hk; cases hk
    rw [link_of_nodup hn] at h
    cases hres : resolveLabels (labels is 0) is with
    | ok more => rw [hres] at h; cases h
    | error e =>
      rw [hres] at h
      cases h
      obtain ⟨k, before, after, heq, hw, hb, hl⟩ := (resolveLabels_eq_error is).mp hres
      cases heq
      exact ⟨hn, before, after, hw, fun m hm => lookup_labels_ne_none.mp (hb m hm),
        lookup_labels_eq_none.mp hl⟩
  · rintro ⟨hn, before, after, hw, hb, hl⟩
    have hres : resolveLabels (labels is 0) is = .error (.unknownLabel l) := (resolveLabels_eq_error is).mpr
      ⟨l, before, after, rfl, hw, fun m hm => lookup_labels_ne_none.mpr (hb m hm), lookup_labels_eq_none.mpr hl⟩
    rw [link_of_nodup hn, hres]
    rfl

theorem link_eq_ok : link is = .ok ops ↔
    (defined is).Nodup ∧ List.Forall₂ (LinksTo (Names is)) (proper is) ops.toList := by
  have hmeans : (defined is).Nodup → LinksTo (fun l a => (labels is 0).lookup l = some a) = LinksTo (Names is) := by
    intro hn
    simp only [lookup_labels hn]
  constructor
  · intro h
    have hn := nodup_of_link fun k hk => by rw [h] at hk; cases hk
    rw [link_of_nodup hn] at h
    cases hres : resolveLabels (labels is 0) is with
    | error e => rw [hres] at h; cases h
    | ok more =>
      rw [hres] at h
      cases h
      exact ⟨hn, hmeans hn ▸ (resolveLabels_eq_ok is more).mp hres⟩
  · rintro ⟨hn, h⟩
    rw [link_of_nodup hn, (resolveLabels_eq_ok is _).mpr (hmeans hn ▸ h)]
    rfl

/-! ## Other names, another order -/

/-- An instruction under other names for labels. -/
def Instruction.rename (f : String → String) : Instruction → Instruction
  | .plain p => .plain p
  | .push n => .push n
  | .pushLabel l => .pushLabel (f l)
  | .jump j l => .jump j (f l)
  | .label l => .label (f l)

/-- An error under other names for labels. -/
def LinkError.rename (f : String → String) : LinkError → LinkError
  | .unknownLabel l => .unknownLabel (f l)
  | .duplicateLabel l => .duplicateLabel (f l)

theorem defined_rename (is : List Instruction) : defined (is.map (.rename f)) = (defined is).map f := by
  induction is with
  | nil => rfl
  | cons i is ih => cases i <;> simp [Instruction.rename, defined, ih]

theorem wanted_rename (is : List Instruction) : wanted (is.map (.rename f)) = (wanted is).map f := by
  induction is with
  | nil => rfl
  | cons i is ih => cases i <;> simp [Instruction.rename, wanted, ih]

theorem proper_rename (is : List Instruction) : proper (is.map (.rename f)) = (proper is).map (.rename f) := by
  have hkeeps : ∀ i : Instruction, (i.rename f).isLabel = i.isLabel := fun i => by cases i <;> rfl
  simp [proper, List.filter_map, Function.comp_def, hkeeps]

theorem Names.rename (h : Names is l a) : Names (is.map (.rename f)) (f l) a := by
  obtain ⟨before, behind, rfl, rfl⟩ := h
  exact ⟨before.map (.rename f), behind.map (.rename f), by simp [Instruction.rename], by simp [proper_rename]⟩

theorem LinksTo.rename (h : ∀ l a, stands l a → stands' (f l) a) {i : Instruction} {op : Op}
    (ho : LinksTo stands i op) : LinksTo stands' (i.rename f) op := by
  cases ho with
  | plain p => exact .plain p
  | push n => exact .push n
  | pushLabel hl => exact .pushLabel (h _ _ hl)
  | jump j hl => exact .jump j (h _ _ hl)

/-- Renamed code links to the same instructions, or is refused for the renamed label. -/
theorem link_rename (hf : Set.InjOn f {l | l ∈ defined is ∨ l ∈ wanted is}) :
    link (is.map (.rename f)) = (link is).mapError (.rename f) := by
  have hnodup : ∀ ls, ls ⊆ defined is → ls.Nodup → (ls.map f).Nodup := fun ls hls =>
    List.Nodup.map_on fun x hx y hy => hf (.inl (hls hx)) (.inl (hls hy))
  cases h : link is with
  | ok ops =>
    obtain ⟨hn, hops⟩ := link_eq_ok.mp h
    refine link_eq_ok.mpr ⟨by rw [defined_rename]; exact hnodup _ (List.Subset.refl _) hn, ?_⟩
    rw [proper_rename, List.forall₂_map_left_iff]
    exact hops.imp fun i op ho => ho.rename fun _ _ hl => hl.rename
  | error e =>
    cases e with
    | duplicateLabel l =>
      obtain ⟨before, after, hd, hn, hl⟩ := link_eq_duplicateLabel.mp h
      refine link_eq_duplicateLabel.mpr ⟨before.map f, after.map f, by simp [defined_rename, hd], ?_,
        List.mem_map_of_mem hl⟩
      exact hnodup _ (by rw [hd]; exact List.subset_append_left _ _) hn
    | unknownLabel l =>
      obtain ⟨hn, before, after, hw, hb, hl⟩ := link_eq_unknownLabel.mp h
      have hwanted : l ∈ wanted is := by simp [hw]
      refine link_eq_unknownLabel.mpr ⟨by rw [defined_rename]; exact hnodup _ (List.Subset.refl _) hn,
        before.map f, after.map f, by simp [wanted_rename, hw], ?_, ?_⟩
      · rw [defined_rename]
        simpa using fun m hm => ⟨m, hb m hm, rfl⟩
      · rw [defined_rename, List.mem_map]
        rintro ⟨k, hk, heq⟩
        exact hl (hf (.inl hk) (.inr hwanted) heq ▸ hk)

/-- Labels that stand together may stand in any order. -/
theorem link_swap (h : link (is ++ .label l :: .label m :: js) = .ok ops) :
    link (is ++ .label m :: .label l :: js) = .ok ops := by
  obtain ⟨hn, hops⟩ := link_eq_ok.mp h
  have hnames : ∀ k a, Names (is ++ .label l :: .label m :: js) k a → Names (is ++ .label m :: .label l :: js) k a := by
    intro k a hk
    rw [← mem_labels, labels_append] at hk ⊢
    simpa [labels, or_left_comm] using hk
  refine link_eq_ok.mpr ⟨?_, ?_⟩
  · have hperm : (defined (is ++ .label m :: .label l :: js)).Perm (defined (is ++ .label l :: .label m :: js)) := by
      simpa [defined] using (List.Perm.swap l m (defined js)).append_left (defined is)
    exact hperm.nodup_iff.mpr hn
  · have hproper : proper (is ++ .label m :: .label l :: js) = proper (is ++ .label l :: .label m :: js) := by
      simp [proper, Instruction.isLabel]
    rw [hproper]
    exact hops.imp fun _ _ ho => ho.mono hnames

/--
Linking is exact. It refuses the first label that repeats an earlier one; otherwise the first label pushed or jumped
to that stands nowhere; otherwise it gives one instruction for each proper one, in order, in which every label has
become the number of proper instructions in front of it. So an injective renaming of the labels leaves the
instructions alone, and so does moving a label across one that stands next to it.
-/
theorem link_exact (is : List Instruction) :
    (∀ l, link is = .error (.duplicateLabel l) ↔
      ∃ before after, defined is = before ++ l :: after ∧ before.Nodup ∧ l ∈ before) ∧
    (∀ l, link is = .error (.unknownLabel l) ↔ (defined is).Nodup ∧
      ∃ before after, wanted is = before ++ l :: after ∧ (∀ m ∈ before, m ∈ defined is) ∧ l ∉ defined is) ∧
    (∀ ops, link is = .ok ops ↔ (defined is).Nodup ∧ List.Forall₂ (LinksTo (Names is)) (proper is) ops.toList) ∧
    ((defined is).Nodup → (∀ l ∈ wanted is, l ∈ defined is) → ∃ ops, link is = .ok ops) ∧
    (∀ f, Set.InjOn f {l | l ∈ defined is ∨ l ∈ wanted is} →
      link (is.map (.rename f)) = (link is).mapError (.rename f)) ∧
    ∀ before behind l m ops, is = before ++ .label l :: .label m :: behind → link is = .ok ops →
      link (before ++ .label m :: .label l :: behind) = .ok ops := by
  refine ⟨fun _ => link_eq_duplicateLabel, fun _ => link_eq_unknownLabel, fun _ => link_eq_ok, ?_, ?_, ?_⟩
  · intro hn hw
    obtain ⟨ops, hops, -⟩ := link_placed hn hw
    exact ⟨ops, hops⟩
  · exact fun f hf => link_rename hf
  · rintro before behind l m ops rfl h
    exact link_swap h

/-- Some code with two labels at its start, one at its end, and a reference to each end. -/
def roundTrip : List Instruction :=
  [.label "start", .label "top", .pushLabel "top", .jump .always "done", .push 5, .label "done"]

theorem link_exact_roundTrip :
    link roundTrip = .ok #[.push 0, .jump .always 3, .push 5] ∧
    link (roundTrip.map (.rename ("fun_" ++ ·))) = .ok #[.push 0, .jump .always 3, .push 5] ∧
    link [.label "top", .label "start", .pushLabel "top", .jump .always "done", .push 5, .label "done"] =
      .ok #[.push 0, .jump .always 3, .push 5] ∧
    (∃ ops, link roundTrip = .ok ops) ∧
    link (roundTrip ++ [.pushLabel "nowhere"]) = .error (.unknownLabel "nowhere") ∧
    link (roundTrip ++ [.label "top", .pushLabel "nowhere"]) = .error (.duplicateLabel "top") := by
  have hnames : Names roundTrip "top" 0 ∧ Names roundTrip "done" 3 :=
    ⟨⟨[.label "start"], _, rfl, rfl⟩,
      ⟨[.label "start", .label "top", .pushLabel "top", .jump .always "done", .push 5], [], rfl, rfl⟩⟩
  have hlink : link roundTrip = .ok #[.push 0, .jump .always 3, .push 5] :=
    ((link_exact roundTrip).2.2.1 _).mpr ⟨by decide,
      .cons (.pushLabel hnames.1) (.cons (.jump .always hnames.2) (.cons (.push 5) .nil))⟩
  refine ⟨hlink, ?_, ?_, ?_, ?_, ?_⟩
  · rw [(link_exact roundTrip).2.2.2.2.1 _ fun l _ m _ h => by simpa using h, hlink]
    rfl
  · exact (link_exact roundTrip).2.2.2.2.2 [] _ _ _ _ rfl hlink
  · exact (link_exact roundTrip).2.2.2.1 (by decide) (by decide)
  · exact ((link_exact _).2.1 _).mpr ⟨by decide, ["top", "done"], [], by decide, by decide, by decide⟩
  · exact ((link_exact _).1 _).mpr ⟨["start", "top", "done"], [], by decide, by decide, by decide⟩

end FoolLang.Machine
