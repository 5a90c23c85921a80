/-
Steps told by lists, computed. A trace is followed for as long as it is known what the machine does and a
cell is free, and the run of the machine visits what the trace comes to.
-/
import FoolLang.Proofs.Machine.Timeline

namespace FoolLang.Machine

variable {code : Array Op} {c c' : Config} {i k n : Nat}

namespace Config

/-! ## One step -/

/-- The word at an address, if it belongs to the heap or to the stack. -/
def word? (c : Config) (a : Int32) : Option Int32 :=
  if a.toInt.toNat < c.heap.length then
    if a = .ofNat a.toInt.toNat then c.heap[a.toInt.toNat]? else none
  else if a = stackAt (memSize - 1 - a.toInt.toNat + 1) then c.stack.reverse[memSize - 1 - a.toInt.toNat]? else none

theorem holds_of_word? {a w : Int32} (h : c.word? a = some w) : c.Holds a w := by
  unfold word? at h
  split at h <;> split at h
  · rename_i ha
    rw [ha]
    exact .heap h
  · cases h
  · rename_i ha
    rw [ha]
    exact .stack h
  · cases h

/-- An instruction that takes one word from the stack, given what it does with the word and the others. -/
def take? (c : Config) (f : Int32 → List Int32 → Option Config) : Option Config :=
  match c.stack with
  | v :: st => f v st
  | [] => none

/-- An instruction that takes two words from the stack, given what it does with them and the others. -/
def takeTwo? (c : Config) (f : Int32 → Int32 → List Int32 → Option Config) : Option Config :=
  c.take? fun y st =>
    match st with
    | x :: st => f x y st
    | [] => none

theorem take?_eq_some {f : Int32 → List Int32 → Option Config} (h : c.take? f = some c') :
    ∃ v st, c.stack = v :: st ∧ f v st = some c' := by
  unfold take? at h
  split at h
  · rename_i v st hs
    exact ⟨v, st, hs, h⟩
  · cases h

theorem takeTwo?_eq_some {f : Int32 → Int32 → List Int32 → Option Config} (h : c.takeTwo? f = some c') :
    ∃ x y st, c.stack = y :: x :: st ∧ f x y st = some c' := by
  obtain ⟨y, st, hs, h⟩ := take?_eq_some h
  split at h
  · rename_i x st
    exact ⟨x, y, st, hs, h⟩
  · cases h

/-- A store of a word into a register; only the next free address is stored into that of the heap. -/
def store? (c : Config) (r : Register) (v : Int32) (st : List Int32) : Option Config :=
  match r with
  | .ra => some { c with ip := c.ip + 1, stack := st, ra := v }
  | .tm => some { c with ip := c.ip + 1, stack := st, tm := v }
  | .fp => some { c with ip := c.ip + 1, stack := st, fp := v }
  | .hp =>
    if v = .ofNat (c.heap.length + 1) then
      c.spare.map fun w => { c with ip := c.ip + 1, stack := st, heap := c.heap ++ [w], spare := none }
    else none

/-- A load of the word at an address. -/
def loadWord? (c : Config) (a : Int32) (st : List Int32) : Option Config :=
  (if a = .ofNat c.heap.length then c.spare else c.word? a).map fun v => { c with ip := c.ip + 1, stack := v :: st }

/-- A jump to an address that is on the stack. -/
def call? (code : Array Op) (c : Config) (a : Int32) (st : List Int32) : Option Config :=
  if a = .ofNat a.toInt.toNat ∧ a.toInt.toNat < code.size then
    some { c with ip := a.toInt.toNat, stack := st, ra := .ofNat (c.ip + 1), level := levelAfter code c.ip c.level }
  else none

/-- What an instruction does; nothing where that is not known. -/
def act? (code : Array Op) (c : Config) : Op → Option Config
  | .push w => some { c with ip := c.ip + 1, stack := w :: c.stack }
  | .plain .pop => c.take? fun _ st => some { c with ip := c.ip + 1, stack := st }
  | .plain (.arith a) => c.takeTwo? fun x y st =>
    if a = .div ∧ y = 0 then none else some { c with ip := c.ip + 1, stack := a.apply x y :: st }
  | .plain .storeWord => c.takeTwo? fun v a st =>
    if a = .ofNat c.heap.length then some { c with ip := c.ip + 1, stack := st, spare := some v } else none
  | .plain .loadWord => c.take? c.loadWord?
  | .plain .jumpSubroutine => c.take? (c.call? code)
  | .plain (.load r) => some { c with ip := c.ip + 1, stack := c.register r :: c.stack }
  | .plain (.store r) => c.take? (c.store? r)
  | .plain .copyFp => some { c with ip := c.ip + 1, fp := stackAt c.stack.length }
  | .plain .print => c.take? fun v _ => some { c with ip := c.ip + 1, output := c.output ++ [v] }
  | .plain .halt => none
  | .jump .always t => some { c with ip := t }
  | .jump j t => c.takeTwo? fun x y st => some { c with ip := if j.taken x y then t else c.ip + 1, stack := st }

/-- One step; nothing where it is not known what the machine does. -/
def next? (code : Array Op) (c : Config) : Option Config := code[c.ip]?.bind (c.act? code)

theorem store?_step {r : Register} {v : Int32} {st : List Int32} (hop : code[c.ip]? = some (.plain (.store r)))
    (hs : c.stack = v :: st) (h : c.store? r v st = some c') : c.Step code c' := by
  cases r with
  | ra => cases h; exact .storeRa hop hs
  | tm => cases h; exact .storeTm hop hs
  | fp => cases h; exact .storeFp hop hs
  | hp =>
    simp only [store?] at h
    split at h
    · rename_i ha
      obtain ⟨w, hw, rfl⟩ := Option.map_eq_some_iff.mp h
      exact .storeHp hop (ha ▸ hs) hw
    · cases h

theorem loadWord?_step {a : Int32} {st : List Int32} (hop : code[c.ip]? = some (.plain .loadWord))
    (hs : c.stack = a :: st) (h : c.loadWord? a st = some c') : c.Step code c' := by
  obtain ⟨v, hv, rfl⟩ := Option.map_eq_some_iff.mp h
  split at hv
  · rename_i ha
    exact .loadSpare hop (ha ▸ hs) hv
  · exact .loadWord hop hs (holds_of_word? hv)

theorem call?_step {a : Int32} {st : List Int32} (hop : code[c.ip]? = some (.plain .jumpSubroutine))
    (hs : c.stack = a :: st) (h : c.call? code a st = some c') : c.Step code c' := by
  unfold call? at h
  split at h
  · rename_i ha
    cases h
    exact .call hop (hs.trans (congrArg (· :: st) ha.1)) ha.2
  · cases h

/-- What is computed is a step. -/
theorem next?_step (h : c.next? code = some c') : c.Step code c' := by
  obtain ⟨op, hop, h⟩ := Option.bind_eq_some_iff.mp h
  cases op with
  | push w => cases h; exact .push hop
  | plain q =>
    cases q with
    | pop =>
      obtain ⟨v, st, hs, h⟩ := take?_eq_some h
      cases h
      exact .pop hop hs
    | arith a =>
      obtain ⟨x, y, st, hs, h⟩ := takeTwo?_eq_some h
      split at h
      · cases h
      · rename_i hd
        cases h
        exact .arith hop hs fun ha hy => hd ⟨ha, hy⟩
    | storeWord =>
      obtain ⟨v, a, st, hs, h⟩ := takeTwo?_eq_some h
      split at h
      · rename_i ha
        cases h
        exact .storeSpare hop (ha ▸ hs)
      · cases h
    | loadWord =>
      obtain ⟨a, st, hs, h⟩ := take?_eq_some h
      exact loadWord?_step hop hs h
    | jumpSubroutine =>
      obtain ⟨a, st, hs, h⟩ := take?_eq_some h
      exact call?_step hop hs h
    | load r => cases h; exact .load hop
    | store r =>
      obtain ⟨v, st, hs, h⟩ := take?_eq_some h
      exact store?_step hop hs h
    | copyFp => cases h; exact .copyFp hop
    | print =>
      obtain ⟨v, st, hs, h⟩ := take?_eq_some h
      cases h
      exact .print hop hs
    | halt => cases h
  | jump j t =>
    cases j with
    | always => cases h; exact .jump hop
    | ifEqual | ifLessEqual =>
      obtain ⟨x, y, st, hs, h⟩ := takeTwo?_eq_some h
      cases h
      exact .branch hop (fun hj => nomatch hj) hs

/-! ## Traces -/

instance : Decidable c.Roomy := inferInstanceAs (Decidable (_ < _))

/-- What some steps lead to, as long as a cell is free in front of every one. -/
def after? (code : Array Op) (c : Config) : Nat → Option Config
  | 0 => some c
  | k + 1 => if c.Roomy then (c.next? code).bind fun c' => after? code c' k else none

end Config

theorem At.not_crowded (h : At code i c) (hr : c.Roomy) : ¬ Crowded code i := by
  rintro ⟨s, hv, hle⟩
  obtain ⟨s', hv', hs, -⟩ := h
  rw [hv.unique hv'] at hle
  rw [hs.roomy_iff] at hr
  exact Int32.not_lt.mpr hle hr

/-- The run visits what a trace comes to, and on the way the stack does not meet the heap. -/
theorem At.after (hsize : code.size < 2 ^ 31) (h : At code i c) (hc : c.after? code k = some c') :
    At code (i + k) c' ∧ ∀ j, i ≤ j → j < i + k → ¬ Crowded code j := by
  induction k generalizing i c with
  | zero =>
    cases hc
    exact ⟨h, fun j hij hj => by omega⟩
  | succ k ih =>
    rw [Config.after?] at hc
    split at hc
    · rename_i hr
      obtain ⟨c₁, hnext, hrest⟩ := Option.bind_eq_some_iff.mp hc
      have hfree := h.not_crowded hr
      have h₁ := (h.succ hsize (Config.next?_step hnext)).resolve_left hfree
      obtain ⟨hat, hall⟩ := ih h₁ hrest
      rw [show i + 1 + k = i + (k + 1) by omega] at hat hall
      refine ⟨hat, fun j hij hj => ?_⟩
      by_cases hji : j = i
      · rwa [hji]
      · exact hall j (by omega) hj
    · cases hc

/-- Where the trace of a run comes to the halt, the stack never meets the heap. -/
theorem not_crowded_of_trace (hsize : code.size < 2 ^ 31) (hc : Config.initial.after? code k = some c) (hr : c.Roomy)
    (hop : code[c.ip]? = some (.plain .halt)) (hs : c.stack ≠ []) (j : Nat) : ¬ Crowded code j := by
  obtain ⟨hat, hall⟩ := at_initial.after hsize hc
  rw [Nat.zero_add] at hat hall
  intro hcrowd
  rcases Nat.lt_trichotomy j k with hlt | rfl | hgt
  · exact hall j (Nat.zero_le j) hlt hcrowd
  · exact hat.not_crowded hr hcrowd
  · obtain ⟨s, hv, hshown, -⟩ := hat
    obtain ⟨t, ht, -⟩ := hcrowd
    obtain ⟨v, st, hst⟩ := List.exists_cons_of_ne_nil hs
    obtain ⟨s', hstep⟩ := step_halt hshown hop hst
    have hle := hv.le_of_stop ht fun u hu => by rw [hstep] at hu; cases hu
    omega

end FoolLang.Machine
