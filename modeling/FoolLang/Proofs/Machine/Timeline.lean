/-
The run of a program from its start, as a line of times. A piece of it runs like an evaluation when,
from one time on, it comes to a configuration that the value of the evaluation asks for, or to the
fault that the evaluation stops with, or goes on for as long as the evaluation was allowed to; unless
before that the stack meets the heap.
-/
import FoolLang.Proofs.Machine.Step
import FoolLang.Proofs.Semantics.Evaluation

namespace FoolLang.Machine

/-- The state of a run after some steps. -/
def Visits (code : Array Op) (k : Nat) (s : State) : Prop := run code k .initial = (.unfinished, s)

/-- The stack has met the heap in the state after some steps. -/
def Crowded (code : Array Op) (k : Nat) : Prop := ∃ s, Visits code k s ∧ s.sp ≤ s.hp

/-- How many routines are running after some steps. -/
def levelAt (code : Array Op) : Nat → Nat
  | 0 => 0
  | k + 1 => levelAfter code (run code k .initial).2.ip (levelAt code k)

/-- What the state after some steps shows. -/
def At (code : Array Op) (k : Nat) (c : Config) : Prop :=
  ∃ s, Visits code k s ∧ c.Shown s ∧ c.level = levelAt code k

variable {code : Array Op} {k j i n : Nat} {s s' t : State} {c c' : Config}

/-! ## Times -/

theorem Visits.succ (h : Visits code k s) (hs : step code s = .ok none s') :
    Visits code (k + 1) s' := by
  rw [Visits, run_add, h]
  simp [run, hs]

theorem Visits.unique (h : Visits code k s) (h' : Visits code k s') : s = s' := by
  rw [Visits, h] at h'; cases h'; rfl

theorem Visits.faulted (h : Visits code k s) {f : Fault} (hs : step code s = .error f s') :
    run code (k + 1) .initial = (.faulted f, s') := by
  rw [run_add, h]
  simp [run, hs]

theorem Visits.halted (h : Visits code k s) {r : Result} (hs : step code s = .ok (some r) s') :
    run code (k + 1) .initial = (.halted r, s') := by
  rw [run_add, h]
  simp [run, hs]

/-- A run that is going on after some steps was going on before. -/
theorem Visits.before (h : Visits code k s) (hj : j ≤ k) : ∃ t, Visits code j t := by
  obtain ⟨m, rfl⟩ := Nat.exists_eq_add_of_le hj
  rw [Visits, run_add] at h
  cases hr : run code j .initial with
  | mk o t =>
    rw [hr] at h
    cases o with
    | unfinished => exact ⟨t, hr⟩
    | halted r => cases h
    | faulted f => cases h

theorem Visits.step_eq (h : Visits code k s) (h' : Visits code (k + 1) s') : step code s = .ok none s' := by
  rw [Visits, run_add, h] at h'
  simp only [run] at h'
  split at h' <;> cases h'
  assumption

/-- No state comes after one in which the machine halts or fails. -/
theorem Visits.le_of_stop (h : Visits code k s) (h' : Visits code j t)
    (hs : ∀ u, step code s ≠ .ok none u) : j ≤ k := by
  by_contra hlt
  obtain ⟨u, hu⟩ := h'.before (show k + 1 ≤ j by omega)
  exact hs u (h.step_eq hu)

theorem At.visits (h : At code k c) : ∃ s, Visits code k s := ⟨h.choose, h.choose_spec.1⟩

theorem At.crowded (h : At code k c) (hr : ¬ c.Roomy) : Crowded code k := by
  obtain ⟨s, hv, hs, -⟩ := h
  rw [hs.roomy_iff] at hr
  exact ⟨s, hv, Int32.not_lt.mp hr⟩

theorem At.level_eq (h : At code k c) : c.level = levelAt code k := by
  obtain ⟨s, hv, hs, hl⟩ := h
  exact hl

/-- The next time shows the next configuration, unless the stack has met the heap. -/
theorem At.succ_of_call (hcall : code[c.ip]? = some (.plain .jumpSubroutine) → code.size < 2 ^ 31) (h : At code k c)
    (hstep : c.Step code c') : Crowded code k ∨ At code (k + 1) c' := by
  by_cases hr : c.Roomy
  · obtain ⟨s, hv, hs, hl⟩ := h
    obtain ⟨s', hs', hshown⟩ := step_shown_of_call hcall hs hr hstep
    refine .inr ⟨s', hv.succ hs', hshown, ?_⟩
    rw [hstep.level, levelAt, hl, show run code k .initial = (.unfinished, s) from hv, hs.ip]
  · exact .inl (h.crowded hr)

theorem At.succ (hsize : code.size < 2 ^ 31) (h : At code k c) (hstep : c.Step code c') :
    Crowded code k ∨ At code (k + 1) c' := h.succ_of_call (fun _ => hsize) hstep

/-- Where nothing has been pushed yet. -/
def Config.initial : Config := ⟨0, [], [], none, stackBase, 0, 0, [], 0⟩

theorem at_initial : At code 0 .initial :=
  ⟨.initial, rfl, ⟨⟨List.replicate memSize 0, by simp [Config.initial, State.initial], fun _ h => by cases h⟩, rfl,
    by simp [Config.initial, State.initial, stackAt], rfl, rfl, rfl, rfl, rfl⟩, rfl⟩

/-! ## Paths -/

/-- Some steps, from configurations that have a property. -/
inductive Path (code : Array Op) (P : Config → Prop) : Config → Config → Prop
  | refl (c : Config) : Path code P c c
  | step {c c₁ c₂ : Config} (hP : P c) (hs : c.Step code c₁) (rest : Path code P c₁ c₂) :
    Path code P c c₂

variable {P P' : Config → Prop}

theorem Path.trans {c c₁ c₂ : Config} (h : Path code P c c₁) (h' : Path code P c₁ c₂) :
    Path code P c c₂ := by
  induction h with
  | refl => exact h'
  | step hP hs _ ih => exact .step hP hs (ih h')

theorem Path.single (hP : P c) (hs : c.Step code c') : Path code P c c' := .step hP hs (.refl _)

theorem Path.imp (h : Path code P c c') (hi : ∀ c, P c → P' c) : Path code P' c c' := by
  induction h with
  | refl => exact .refl _
  | step hP hs _ ih => exact .step (hi _ hP) hs ih

/-! ## Runs -/

/-- What is known of a program when a piece of its run is looked at. -/
structure Setting where
  code : Array Op
  size_lt : code.size < 2 ^ 31
  /-- What is to be shown of every time on the way. -/
  watch : Nat → Config → Prop
  /-- Where the receivers of method calls are dereferenced. -/
  derefs : Nat → Prop

/-- The next instruction divides by zero. -/
def Setting.Divides (S : Setting) (c : Config) : Prop :=
  S.code[c.ip]? = some (.plain (.arith .div)) ∧ ∃ x st, c.stack = 0 :: x :: st

/-- The next instruction dereferences a null receiver. -/
def Setting.Dereferences (S : Setting) (c : Config) : Prop :=
  S.code[c.ip]? = some (.plain .loadWord) ∧ S.derefs c.ip ∧ ∃ st, c.stack = -1 :: st

variable {α β : Type} {S : Setting}

theorem At.roomy (h : At code k c) (hfree : ¬ Crowded code k) : c.Roomy := by
  by_contra hr
  exact hfree (h.crowded hr)

/-- A run that divides by zero ends. -/
theorem At.divides (h : At S.code k c) (hfree : ¬ Crowded S.code k) (hd : S.Divides c) :
    ∃ s s', Visits S.code k s ∧ s.ip = c.ip ∧ Machine.step S.code s = .error (.divisionByZero c.ip) s' := by
  have hr := h.roomy hfree
  obtain ⟨s, hv, hs, -⟩ := h
  obtain ⟨hop, x, st, hstack⟩ := hd
  obtain ⟨s', hstep⟩ := step_divisionByZero hs hr hop hstack
  exact ⟨s, s', hv, hs.ip, hstep⟩

/-- A run that dereferences the null reference ends. -/
theorem At.dereferences (h : At S.code k c) (hfree : ¬ Crowded S.code k) (hd : S.Dereferences c) :
    ∃ s s', Visits S.code k s ∧ s.ip = c.ip ∧ Machine.step S.code s = .error (.outOfBounds (-1)) s' := by
  have hr := h.roomy hfree
  obtain ⟨s, hv, hs, -⟩ := h
  obtain ⟨hop, -, st, hstack⟩ := hd
  obtain ⟨s', hstep⟩ := step_outOfBounds hs hr hop hstack
  exact ⟨s, s', hv, hs.ip, hstep⟩

/-- How a piece of a run that began at one time ends at another like an evaluation. -/
def Ends (S : Setting) (P : Config → Prop) (n i j : Nat) (Q : α → Nat → Config → Prop) :
    Except Stop α → Prop
  | .ok x => ∃ c, At S.code j c ∧ Q x j c
  | .error .divisionByZero => ∃ c, At S.code j c ∧ P c ∧ S.watch j c ∧ S.Divides c
  | .error .nullReceiver => ∃ c, At S.code j c ∧ P c ∧ S.watch j c ∧ S.Dereferences c
  | .error .exhausted => (∃ c, At S.code j c) ∧ i + n ≤ j
  | .error .stuck => False

theorem Ends.visits {P : Config → Prop} {r : Except Stop α} {Q : α → Nat → Config → Prop} (h : Ends S P n i j Q r) :
    ∃ t, Visits S.code j t := by
  match r, h with
  | .ok x, ⟨c, hat, _⟩ => exact hat.visits
  | .error .divisionByZero, ⟨c, hat, _⟩ => exact hat.visits
  | .error .nullReceiver, ⟨c, hat, _⟩ => exact hat.visits
  | .error .exhausted, ⟨⟨c, hat⟩, _⟩ => exact hat.visits

/--
From some time on, the run does what an evaluation with an outcome says, through configurations that
have a property and take a step told by lists, unless the stack meets the heap.
-/
def Runs (S : Setting) (P : Config → Prop) (n i : Nat) (r : Except Stop α)
    (Q : α → Nat → Config → Prop) : Prop :=
  ∃ j, i ≤ j ∧ (∀ k, i ≤ k → k < j → ∃ c, At S.code k c ∧ P c ∧ S.watch k c ∧ ∃ c', c.Step S.code c') ∧
    (Crowded S.code j ∨ Ends S P n i j Q r)

namespace Runs

variable {r : Except Stop α} {Q : α → Nat → Config → Prop}

theorem done {x : α} (h : At S.code i c) (hQ : Q x i c) : Runs S P n i (.ok x) Q :=
  ⟨i, Nat.le_refl i, fun _ _ _ => by omega, .inr ⟨c, h, hQ⟩⟩

/-- A weaker property, a weaker end. -/
theorem imp {Q' : α → Nat → Config → Prop} (h : Runs S P n i r Q) (hP : ∀ c, P c → P' c)
    (hQ : ∀ x j c, i ≤ j → At S.code j c → Q x j c → Q' x j c) : Runs S P' n i r Q' := by
  obtain ⟨j, hij, hall, hend⟩ := h
  refine ⟨j, hij, fun k hik hkj => ?_, hend.imp_right fun hend => ?_⟩
  · obtain ⟨c, hc, hp, hw⟩ := hall k hik hkj
    exact ⟨c, hc, hP c hp, hw⟩
  · match r, hend with
    | .ok x, ⟨c, hc, hq⟩ => exact ⟨c, hc, hQ x j c hij hc hq⟩
    | .error .divisionByZero, ⟨c, hc, hp, h⟩ => exact ⟨c, hc, hP c hp, h⟩
    | .error .nullReceiver, ⟨c, hc, hp, h⟩ => exact ⟨c, hc, hP c hp, h⟩
    | .error .exhausted, h => exact h

/-- One step in front of a run. -/
theorem step_succ (h : At S.code i c) (hP : P c) (hw : S.watch i c) (hs : c.Step S.code c')
    (hrest : At S.code (i + 1) c' → Runs S P n (i + 1) r Q) : Runs S P (n + 1) i r Q := by
  rcases h.succ S.size_lt hs with hcrowd | hnext
  · exact ⟨i, Nat.le_refl i, fun _ _ _ => by omega, .inl hcrowd⟩
  · obtain ⟨j, hij, hall, hend⟩ := hrest hnext
    refine ⟨j, by omega, fun k hik hkj => ?_, hend.imp_right fun hend => ?_⟩
    · by_cases hk : k = i
      · exact hk ▸ ⟨c, h, hP, hw, c', hs⟩
      · exact hall k (by omega) hkj
    · match r, hend with
      | .ok x, hend => exact hend
      | .error .divisionByZero, hend => exact hend
      | .error .nullReceiver, hend => exact hend
      | .error .exhausted, ⟨hc, hn⟩ => exact ⟨hc, by omega⟩

/-- Less may be promised of how long a run goes on. -/
theorem of_le {m : Nat} (h : Runs S P m i r Q) (hm : n ≤ m) : Runs S P n i r Q := by
  obtain ⟨j, hij, hall, hend⟩ := h
  refine ⟨j, hij, hall, hend.imp_right fun hend => ?_⟩
  match r, hend with
  | .ok x, hend => exact hend
  | .error .divisionByZero, hend => exact hend
  | .error .nullReceiver, hend => exact hend
  | .error .exhausted, ⟨hc, hn⟩ => exact ⟨hc, by omega⟩

theorem step (h : At S.code i c) (hP : P c) (hw : S.watch i c) (hs : c.Step S.code c')
    (hrest : At S.code (i + 1) c' → Runs S P n (i + 1) r Q) : Runs S P n i r Q :=
  (step_succ h hP hw hs hrest).of_le (Nat.le_succ n)

/-- Some steps in front of a run. -/
theorem path (hpath : Path S.code P' c c') (hP : ∀ c, P' c → P c) (hw : ∀ k c, P' c → S.watch k c)
    (h : At S.code i c) (hrest : ∀ j, i ≤ j → At S.code j c' → Runs S P n j r Q) : Runs S P n i r Q := by
  induction hpath generalizing i with
  | refl => exact hrest i (Nat.le_refl i) h
  | step hc hs _ ih =>
    exact step h (hP _ hc) (hw _ _ hc) hs fun h' => ih h' fun j hj => hrest j (by omega)

/-- The end of a run may tell of the times on the way. -/
theorem record (h : Runs S P n i r Q) :
    Runs S P n i r fun x j c => Q x j c ∧ ∀ k, i ≤ k → k < j → ∃ c, At S.code k c ∧ P c := by
  obtain ⟨j, hij, hall, hend⟩ := h
  have hway : ∀ k, i ≤ k → k < j → ∃ c, At S.code k c ∧ P c := fun k hik hkj => by
    obtain ⟨c, hc, hp, -⟩ := hall k hik hkj
    exact ⟨c, hc, hp⟩
  refine ⟨j, hij, hall, hend.imp_right fun hend => ?_⟩
  match r, hend with
  | .ok x, ⟨c, hc, hq⟩ => exact ⟨c, hc, hq, hway⟩
  | .error .divisionByZero, hend => exact hend
  | .error .nullReceiver, hend => exact hend
  | .error .exhausted, hend => exact hend

/--
Every time that a run visits comes before the evaluation has its value or not. Before that, the run goes on, or
stops where the evaluation does.
-/
theorem visited (h : Runs S P n i r Q) (hik : i ≤ k) (hk : k < i + n) (hfree : ∀ j ≤ k, ¬ Crowded S.code j)
    (hv : Visits S.code k s) :
    (∃ c, At S.code k c ∧ P c ∧ S.watch k c ∧ ((∃ t, Visits S.code (k + 1) t) ∨ S.Divides c ∨ S.Dereferences c)) ∨
      ∃ x j c, r = .ok x ∧ i ≤ j ∧ j ≤ k ∧ At S.code j c ∧ Q x j c := by
  obtain ⟨j, hij, hall, hend⟩ := h
  rcases Nat.lt_or_ge k j with hkj | hjk
  · obtain ⟨c, hat, hp, hw, -⟩ := hall k hik hkj
    refine .inl ⟨c, hat, hp, hw, .inl ?_⟩
    rcases Nat.lt_or_ge (k + 1) j with hlt | hge
    · obtain ⟨c', hat', -⟩ := hall (k + 1) (by omega) hlt
      exact hat'.visits
    · rw [show k + 1 = j by omega]
      rcases hend with ⟨t, ht, -⟩ | hend
      · exact ⟨t, ht⟩
      · exact hend.visits
  · have hend := hend.resolve_left (hfree j hjk)
    have hstop : ∀ t t' f, Visits S.code j t → Machine.step S.code t = .error f t' → j = k := fun t t' f ht hstep => by
      have hle := ht.le_of_stop hv fun u hu => by rw [hstep] at hu; cases hu
      omega
    match r, hend with
    | .ok x, ⟨c, hat, hq⟩ => exact .inr ⟨x, j, c, rfl, hij, hjk, hat, hq⟩
    | .error .divisionByZero, ⟨c, hat, hp, hw, hd⟩ =>
      obtain ⟨t, t', ht, -, hstep⟩ := hat.divides (hfree j hjk) hd
      cases hstop t t' _ ht hstep
      exact .inl ⟨c, hat, hp, hw, .inr (.inl hd)⟩
    | .error .nullReceiver, ⟨c, hat, hp, hw, hd⟩ =>
      obtain ⟨t, t', ht, -, hstep⟩ := hat.dereferences (hfree j hjk) hd
      cases hstop t t' _ ht hstep
      exact .inl ⟨c, hat, hp, hw, .inr (.inr hd)⟩
    | .error .exhausted, ⟨_, hn⟩ => omega

/-- Where the run goes on and the evaluation does not have its value yet, a step told by lists is taken. -/
theorem moves (h : Runs S P n i r Q) (hik : i ≤ k) (hk : k < i + n) (hfree : ∀ j ≤ k, ¬ Crowded S.code j)
    (hv : Visits S.code (k + 1) s) :
    (∃ c c', At S.code k c ∧ c.Step S.code c') ∨
      ∃ x j c, r = .ok x ∧ i ≤ j ∧ j ≤ k ∧ At S.code j c ∧ Q x j c := by
  obtain ⟨j, hij, hall, hend⟩ := h
  by_cases hkj : k < j
  · obtain ⟨c, hat, -, -, c', hs⟩ := hall k hik hkj
    exact .inl ⟨c, c', hat, hs⟩
  · have hjk : j ≤ k := Nat.le_of_not_lt hkj
    have hend := hend.resolve_left (hfree j hjk)
    -- A fault at the end of the evaluation would have ended the run before.
    have hgoes : ∀ t t' f, Visits S.code j t → Machine.step S.code t ≠ .error f t' := by
      rintro t t' f ht hstep
      have hle := ht.le_of_stop hv fun u hu => by rw [hstep] at hu; cases hu
      omega
    match r, hend with
    | .ok x, ⟨c, hat, hq⟩ => exact .inr ⟨x, j, c, rfl, hij, hjk, hat, hq⟩
    | .error .divisionByZero, ⟨c, hat, _, _, hd⟩ =>
      obtain ⟨t, t', ht, -, hstep⟩ := hat.divides (hfree j hjk) hd
      exact absurd hstep (hgoes t t' _ ht)
    | .error .nullReceiver, ⟨c, hat, _, _, hd⟩ =>
      obtain ⟨t, t', ht, -, hstep⟩ := hat.dereferences (hfree j hjk) hd
      exact absurd hstep (hgoes t t' _ ht)
    | .error .exhausted, ⟨_, hn⟩ => omega

/-- One evaluation after another. -/
theorem bind {f : α → Except Stop β} {R : β → Nat → Config → Prop} (h : Runs S P n i r Q)
    (hf : ∀ x j c, r = .ok x → i ≤ j → At S.code j c → Q x j c → Runs S P n j (f x) R) :
    Runs S P n i (r >>= f) R := by
  obtain ⟨j, hij, hall, hend⟩ := h
  rcases hend with hcrowd | hend
  · exact ⟨j, hij, hall, .inl hcrowd⟩
  · match r, hend with
    | .ok x, ⟨c, hc, hq⟩ =>
      obtain ⟨m, hjm, hall', hend'⟩ := hf x j c rfl hij hc hq
      refine ⟨m, by omega, fun k hik hkm => ?_, hend'.imp_right fun hend' => ?_⟩
      · by_cases hk : k < j
        · exact hall k hik hk
        · exact hall' k (by omega) hkm
      · show Ends S P n i m R (f x)
        match f x, hend' with
        | .ok y, hend' => exact hend'
        | .error .divisionByZero, hend' => exact hend'
        | .error .nullReceiver, hend' => exact hend'
        | .error .exhausted, ⟨hc, hn⟩ => exact ⟨hc, by omega⟩
    | .error .divisionByZero, hend => exact ⟨j, hij, hall, .inr hend⟩
    | .error .nullReceiver, hend => exact ⟨j, hij, hall, .inr hend⟩
    | .error .exhausted, hend => exact ⟨j, hij, hall, .inr hend⟩

end Runs

end FoolLang.Machine
