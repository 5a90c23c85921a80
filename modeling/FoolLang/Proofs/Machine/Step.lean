/-
One step of the machine, told by lists: what each instruction does to a configuration in which a
cell is free. The machine takes the same step in every state that shows the configuration.
-/
import FoolLang.Proofs.Machine.Config

namespace FoolLang.Machine

/--
How many routines are running behind an instruction. A jump to the address that the instruction before it
has pushed from the register of the return address leaves a routine, any other jump of its kind enters one.
-/
def levelAfter (code : Array Op) (ip level : Nat) : Nat :=
  if code[ip]? = some (.plain .jumpSubroutine) then
    if code[ip - 1]? = some (.plain (.load .ra)) then level - 1 else level + 1
  else level

namespace Config

/-- The content of a register. -/
def register (c : Config) : Register → Int32
  | .ra => c.ra
  | .tm => c.tm
  | .fp => c.fp
  | .hp => .ofNat c.heap.length

/--
One instruction. The heap is written at its end only, and grows by the word written there; the
addresses that are called are those of code.
-/
inductive Step (code : Array Op) (c : Config) : Config → Prop
  | push {n : Int32} (h : code[c.ip]? = some (.push n)) :
    Step code c { c with ip := c.ip + 1, stack := n :: c.stack }
  | pop {v : Int32} {st : List Int32} (h : code[c.ip]? = some (.plain .pop))
    (hs : c.stack = v :: st) : Step code c { c with ip := c.ip + 1, stack := st }
  | arith {a : Arith} {x y : Int32} {st : List Int32} (h : code[c.ip]? = some (.plain (.arith a)))
    (hs : c.stack = y :: x :: st) (hd : a = .div → y ≠ 0) :
    Step code c { c with ip := c.ip + 1, stack := a.apply x y :: st }
  | storeSpare {v : Int32} {st : List Int32} (h : code[c.ip]? = some (.plain .storeWord))
    (hs : c.stack = .ofNat c.heap.length :: v :: st) :
    Step code c { c with ip := c.ip + 1, stack := st, spare := some v }
  | loadWord {a v : Int32} {st : List Int32} (h : code[c.ip]? = some (.plain .loadWord))
    (hs : c.stack = a :: st) (ha : c.Holds a v) :
    Step code c { c with ip := c.ip + 1, stack := v :: st }
  | loadSpare {v : Int32} {st : List Int32} (h : code[c.ip]? = some (.plain .loadWord))
    (hs : c.stack = .ofNat c.heap.length :: st) (hv : c.spare = some v) :
    Step code c { c with ip := c.ip + 1, stack := v :: st }
  | call {t : Nat} {st : List Int32} (h : code[c.ip]? = some (.plain .jumpSubroutine))
    (hs : c.stack = .ofNat t :: st) (ht : t < code.size) :
    Step code c { c with ip := t, stack := st, ra := .ofNat (c.ip + 1), level := levelAfter code c.ip c.level }
  | load {r : Register} (h : code[c.ip]? = some (.plain (.load r))) :
    Step code c { c with ip := c.ip + 1, stack := c.register r :: c.stack }
  | storeRa {v : Int32} {st : List Int32} (h : code[c.ip]? = some (.plain (.store .ra)))
    (hs : c.stack = v :: st) : Step code c { c with ip := c.ip + 1, stack := st, ra := v }
  | storeTm {v : Int32} {st : List Int32} (h : code[c.ip]? = some (.plain (.store .tm)))
    (hs : c.stack = v :: st) : Step code c { c with ip := c.ip + 1, stack := st, tm := v }
  | storeFp {v : Int32} {st : List Int32} (h : code[c.ip]? = some (.plain (.store .fp)))
    (hs : c.stack = v :: st) : Step code c { c with ip := c.ip + 1, stack := st, fp := v }
  | storeHp {v : Int32} {st : List Int32} (h : code[c.ip]? = some (.plain (.store .hp)))
    (hs : c.stack = .ofNat (c.heap.length + 1) :: st) (hv : c.spare = some v) :
    Step code c { c with ip := c.ip + 1, stack := st, heap := c.heap ++ [v], spare := none }
  | copyFp (h : code[c.ip]? = some (.plain .copyFp)) :
    Step code c { c with ip := c.ip + 1, fp := stackAt c.stack.length }
  | print {v : Int32} {st : List Int32} (h : code[c.ip]? = some (.plain .print))
    (hs : c.stack = v :: st) : Step code c { c with ip := c.ip + 1, output := c.output ++ [v] }
  | jump {t : Nat} (h : code[c.ip]? = some (.jump .always t)) : Step code c { c with ip := t }
  | branch {j : Jump} {t : Nat} {x y : Int32} {st : List Int32} (h : code[c.ip]? = some (.jump j t))
    (hj : j ≠ .always) (hs : c.stack = y :: x :: st) :
    Step code c { c with ip := if j.taken x y then t else c.ip + 1, stack := st }

theorem Step.level {code : Array Op} {c c' : Config} (h : c.Step code c') :
    c'.level = levelAfter code c.ip c.level := by
  cases h with
  | call => rfl
  | push h | pop h | arith h | storeSpare h | loadWord h | loadSpare h | load h | storeRa h | storeTm h
  | storeFp h | storeHp h | copyFp h | print h | jump h | branch h => simp [levelAfter, h]

end Config

open Config Sequencing

variable {code : Array Op} {c c' : Config} {s : State} {op : Op}

/-- The step of an instruction, from where the instruction pointer has moved on. -/
theorem step_of_execute (h : c.Shown s) (hop : code[c.ip]? = some op) {s' : State}
    (he : op.execute code.size c.ip { s with ip := c.ip + 1 } = .ok none s') :
    step code s = .ok none s' := by
  rw [step_eq (by rw [h.ip]; exact hop), h.ip, he]

theorem Config.roomy_of_le (hr : c.Roomy) (hle : c'.stack.length + c'.heap.length ≤ c.stack.length + c.heap.length) :
    c'.Roomy := by
  rw [Config.Roomy] at *; omega

namespace Config.Shown

theorem popOperands_run (h : c.Shown s) (hr : c.Roomy) {x y : Int32} {st : List Int32}
    (hs : c.stack = y :: x :: st) :
    ∃ s', popOperands s = .ok (x, y) s' ∧ ({ c with stack := st } : Config).Shown s' := by
  obtain ⟨s₁, hp₁, -, h₁⟩ := h.pop_run hr hs
  have hr₁ : ({ c with stack := x :: st } : Config).Roomy := by
    rw [Config.Roomy, hs] at hr; simp [Config.Roomy] at hr ⊢; omega
  obtain ⟨s₂, hp₂, -, h₂⟩ := h₁.pop_run hr₁ rfl
  exact ⟨s₂, (bind_run hp₁).trans (bind_run hp₂), h₂⟩

theorem writeSpare_run (h : c.Shown s) (hr : c.Roomy) (v : Int32) :
    ∃ s', write (.ofNat c.heap.length) v s = .ok () s' ∧ ({ c with spare := some v } : Config).Shown s' := by
  obtain ⟨x, free, hf, -⟩ := h.exists_free hr
  have hn : c.heap.length < memSize := by rw [Config.Roomy] at hr; omega
  refine ⟨_, write_run s hn v, ⟨⟨v :: free, ?_, ?_⟩, h.ip, h.sp, h.hp, h.fp, h.ra, h.tm, h.output⟩⟩
  · rw [Vector.toList_set, hf, List.append_assoc, List.append_assoc,
      List.set_append_right _ _ (Nat.le_refl _)]
    simp
  · intro w hw
    right
    simpa using hw

theorem readSpare_run (h : c.Shown s) (hr : c.Roomy) {v : Int32} (hv : c.spare = some v) :
    Machine.read (.ofNat c.heap.length) s = .ok v s := by
  obtain ⟨x, free, hf, hspare⟩ := h.exists_free hr
  have hn : c.heap.length < memSize := by rw [Config.Roomy] at hr; omega
  have hword : s.word? (.ofNat c.heap.length) = some v := by
    rw [word?_ofNat s hn, hf, ← hspare v hv]
    simp
  exact read_of_word hword

theorem setRegister (h : c.Shown s) (v : Int32) {r : Register} {c' : Config}
    (hc : r = .ra ∧ c' = { c with ra := v } ∨ r = .tm ∧ c' = { c with tm := v } ∨ r = .fp ∧ c' = { c with fp := v }) :
    c'.Shown (s.setRegister v r) := by
  rcases hc with ⟨rfl, rfl⟩ | ⟨rfl, rfl⟩ | ⟨rfl, rfl⟩
  · exact ⟨h.memory, h.ip, h.sp, h.hp, h.fp, rfl, h.tm, h.output⟩
  · exact ⟨h.memory, h.ip, h.sp, h.hp, h.fp, h.ra, rfl, h.output⟩
  · exact ⟨h.memory, h.ip, h.sp, h.hp, rfl, h.ra, h.tm, h.output⟩

theorem register (h : c.Shown s) (r : Register) : s.register r = c.register r := by
  cases r with
  | ra => exact h.ra
  | tm => exact h.tm
  | fp => exact h.fp
  | hp => exact h.hp

/-! ### Single instructions -/

section

variable (h : c.Shown s) (hr : c.Roomy) {st : List Int32} (size here : Nat)

include h hr

theorem execute_arith {a : Arith} {x y : Int32} (hs : c.stack = y :: x :: st) (hd : a = .div → y ≠ 0) :
    ∃ s', (Plain.arith a).execute size here s = .ok none s' ∧
      ({ c with stack := a.apply x y :: st } : Config).Shown s' := by
  obtain ⟨s₁, hp₁, h₁⟩ := h.popOperands_run hr hs
  have hr₁ : ({ c with stack := st } : Config).Roomy := roomy_of_le hr (by simp [hs]; omega)
  obtain ⟨s', hp, hs'⟩ := h₁.push_run hr₁ (a.apply x y)
  refine ⟨s', (bind_run hp₁).trans ?_, hs'⟩
  have hdiv : ¬ (a = .div ∧ y = 0) := fun hzero => hd hzero.1 hzero.2
  show (if a = .div ∧ y = 0 then throw (.divisionByZero here)
    else push (a.apply x y) >>= fun _ => pure none : Act (Option Result)).run s₁ = _
  rw [if_neg hdiv]
  exact bind_run hp

theorem execute_storeWord {v : Int32} (hs : c.stack = .ofNat c.heap.length :: v :: st) :
    ∃ s', Plain.storeWord.execute size here s = .ok none s' ∧
      ({ c with stack := st, spare := some v } : Config).Shown s' := by
  obtain ⟨s₁, hp₁, -, h₁⟩ := h.pop_run hr hs
  have hr₁ : ({ c with stack := v :: st } : Config).Roomy := roomy_of_le hr (by simp [hs])
  obtain ⟨s₂, hp₂, -, h₂⟩ := h₁.pop_run hr₁ rfl
  have hr₂ : ({ c with stack := st } : Config).Roomy := roomy_of_le hr (by simp [hs]; omega)
  obtain ⟨s', hp, hs'⟩ := h₂.writeSpare_run hr₂ v
  exact ⟨s', (bind_run hp₁).trans ((bind_run hp₂).trans (bind_run hp)), hs'⟩

/-- A word is loaded from a word of the configuration, or from the free cell that has been written. -/
theorem execute_loadWord {a v : Int32} (hs : c.stack = a :: st)
    (ha : c.Holds a v ∨ a = .ofNat c.heap.length ∧ c.spare = some v) :
    ∃ s', Plain.loadWord.execute size here s = .ok none s' ∧ ({ c with stack := v :: st } : Config).Shown s' := by
  obtain ⟨s₁, hp₁, hmem, h₁⟩ := h.pop_run hr hs
  have hr₁ : ({ c with stack := st } : Config).Roomy := roomy_of_le hr (by simp [hs])
  have hread : Machine.read a s₁ = .ok v s₁ := by
    rcases ha with ha | ⟨rfl, hv⟩
    · refine read_of_word ?_
      rw [State.word?, hmem]
      exact h.word ha
    · exact h₁.readSpare_run hr₁ hv
  obtain ⟨s', hp, hs'⟩ := h₁.push_run hr₁ v
  exact ⟨s', (bind_run hp₁).trans ((bind_run hread).trans (bind_run hp)), hs'⟩

/-- The address that is called becomes the next instruction, and the one behind the call the return address. -/
theorem execute_jumpSubroutine {t : Nat} (hs : c.stack = .ofNat t :: st) (ht : t < size) (hsize : size < 2 ^ 31) :
    ∃ s', Plain.jumpSubroutine.execute size here s = .ok none s' ∧
      ({ c with ip := t, stack := st, ra := .ofNat c.ip } : Config).Shown s' := by
  obtain ⟨s₁, hp₁, -, h₁⟩ := h.pop_run hr hs
  have hti : (Int32.ofNat t).toInt = t := toInt_ofNat (by omega)
  have htarget : 0 ≤ (Int32.ofNat t).toInt ∧ (Int32.ofNat t).toInt.toNat < size := by omega
  have hjump := jumpTo_of_mem (s := { s₁ with ra := .ofNat s₁.ip }) htarget
  rw [hti, Int.toNat_natCast] at hjump
  have hra : ({ c with stack := st, ra := .ofNat c.ip } : Config).Shown { s₁ with ra := .ofNat s₁.ip } :=
    ⟨h₁.memory, h₁.ip, h₁.sp, h₁.hp, h₁.fp, congrArg Int32.ofNat h₁.ip, h₁.tm, h₁.output⟩
  refine ⟨{ s₁ with ra := .ofNat s₁.ip, ip := t }, (bind_run hp₁).trans ?_, hra.jump t⟩
  exact bind_run (x := jumpTo size (.ofNat t)) hjump

theorem execute_load (r : Register) : ∃ s', (Plain.load r).execute size here s = .ok none s' ∧
    ({ c with stack := c.register r :: c.stack } : Config).Shown s' := by
  obtain ⟨s', hp, hs'⟩ := h.push_run hr (c.register r)
  rw [← h.register r] at hp
  exact ⟨s', bind_run hp, hs'⟩

theorem execute_store {v : Int32} (hs : c.stack = v :: st) {r : Register} {c' : Config}
    (hc : r = .ra ∧ c' = { c with stack := st, ra := v } ∨ r = .tm ∧ c' = { c with stack := st, tm := v } ∨
      r = .fp ∧ c' = { c with stack := st, fp := v }) :
    ∃ s', (Plain.store r).execute size here s = .ok none s' ∧ c'.Shown s' := by
  obtain ⟨s₁, hp₁, -, h₁⟩ := h.pop_run hr hs
  exact ⟨s₁.setRegister v r, bind_run hp₁, h₁.setRegister v hc⟩

/-- The heap takes over the free cell that has been written. -/
theorem execute_storeHp {v : Int32} (hs : c.stack = .ofNat (c.heap.length + 1) :: st) (hv : c.spare = some v) :
    ∃ s', (Plain.store .hp).execute size here s = .ok none s' ∧
      ({ c with stack := st, heap := c.heap ++ [v], spare := none } : Config).Shown s' := by
  obtain ⟨s₁, hp₁, -, h₁⟩ := h.pop_run hr hs
  have hr₁ : ({ c with stack := st } : Config).Roomy := roomy_of_le hr (by simp [hs])
  obtain ⟨x, free, hf, hspare⟩ := h₁.exists_free hr₁
  refine ⟨{ s₁ with hp := .ofNat (c.heap.length + 1) }, bind_run hp₁,
    ⟨⟨free, ?_, fun _ hw => by cases hw⟩, h₁.ip, h₁.sp, ?_, h₁.fp, h₁.ra, h₁.tm, h₁.output⟩⟩
  · rw [hf, hspare v hv]; simp
  · simp

omit hr in
theorem execute_print {v : Int32} (hs : c.stack = v :: st) : ∃ s', Plain.print.execute size here s = .ok none s' ∧
    ({ c with output := c.output ++ [v] } : Config).Shown s' := by
  have hword := h.word (Shown.holds_top c hs)
  rw [← h.sp] at hword
  exact ⟨{ s with output := s.output.push v }, bind_run (read_of_word hword),
    ⟨h.memory, h.ip, h.sp, h.hp, h.fp, h.ra, h.tm, by simp [h.output]⟩⟩

end

end Config.Shown

/--
Where a cell is free, the machine takes the step that a configuration takes. Only for a call do addresses of code
have to be words.
-/
theorem step_shown_of_call (hcall : code[c.ip]? = some (.plain .jumpSubroutine) → code.size < 2 ^ 31) (h : c.Shown s)
    (hr : c.Roomy) (hstep : c.Step code c') : ∃ s', step code s = .ok none s' ∧ c'.Shown s' := by
  have hn := h.jump (c.ip + 1)
  have hrn : ({ c with ip := c.ip + 1 } : Config).Roomy := hr
  have hdone : ∀ {op : Op}, code[c.ip]? = some op →
      (∃ s', op.execute code.size c.ip { s with ip := c.ip + 1 } = .ok none s' ∧ c'.Shown s') →
        ∃ s', step code s = .ok none s' ∧ c'.Shown s' :=
    fun hop ⟨s', he, hs'⟩ => ⟨s', step_of_execute h hop he, hs'⟩
  cases hstep with
  | push hop =>
    obtain ⟨s', hp, hs'⟩ := hn.push_run hrn _
    exact hdone hop ⟨s', bind_run hp, hs'⟩
  | pop hop hs =>
    obtain ⟨s', hp, -, hs'⟩ := hn.pop_run hrn hs
    exact hdone hop ⟨s', bind_run hp, hs'⟩
  | arith hop hs hd => exact hdone hop (hn.execute_arith hrn code.size c.ip hs hd)
  | storeSpare hop hs => exact hdone hop (hn.execute_storeWord hrn code.size c.ip hs)
  | @loadWord a v st hop hs ha =>
    have ha : ({ c with ip := c.ip + 1 } : Config).Holds a v := ha.mono (Extends.refl c)
    exact hdone hop (hn.execute_loadWord hrn code.size c.ip hs (.inl ha))
  | loadSpare hop hs hv => exact hdone hop (hn.execute_loadWord hrn code.size c.ip hs (.inr ⟨rfl, hv⟩))
  | call hop hs ht =>
    obtain ⟨s', he, hs'⟩ := hn.execute_jumpSubroutine hrn _ c.ip hs ht (hcall hop)
    exact hdone hop ⟨s', he, ⟨hs'.memory, hs'.ip, hs'.sp, hs'.hp, hs'.fp, hs'.ra, hs'.tm, hs'.output⟩⟩
  | load hop => exact hdone hop (hn.execute_load hrn code.size c.ip _)
  | storeRa hop hs => exact hdone hop (hn.execute_store hrn code.size c.ip hs (.inl ⟨rfl, rfl⟩))
  | storeTm hop hs => exact hdone hop (hn.execute_store hrn code.size c.ip hs (.inr (.inl ⟨rfl, rfl⟩)))
  | storeFp hop hs => exact hdone hop (hn.execute_store hrn code.size c.ip hs (.inr (.inr ⟨rfl, rfl⟩)))
  | storeHp hop hs hv => exact hdone hop (hn.execute_storeHp hrn code.size c.ip hs hv)
  | copyFp hop =>
    exact hdone hop ⟨_, rfl, ⟨hn.memory, rfl, hn.sp, hn.hp, h.sp, hn.ra, hn.tm, hn.output⟩⟩
  | print hop hs => exact hdone hop (hn.execute_print code.size c.ip hs)
  | @jump t hop => exact hdone hop ⟨{ s with ip := t }, rfl, h.jump t⟩
  | @branch j t x y st hop hj hs =>
    obtain ⟨s₁, hp₁, h₁⟩ := hn.popOperands_run hrn hs
    have hip : s₁.ip = c.ip + 1 := h₁.ip
    refine hdone hop ⟨_, ?_, h₁.jump (if j.taken x y then t else c.ip + 1)⟩
    rw [execute_branch hj hp₁, hip]

theorem step_shown (hsize : code.size < 2 ^ 31) (h : c.Shown s) (hr : c.Roomy) (hstep : c.Step code c') :
    ∃ s', step code s = .ok none s' ∧ c'.Shown s' := step_shown_of_call (fun _ => hsize) h hr hstep

/-! ## Steps that end a run -/

theorem step_eq_error (h : c.Shown s) (hop : code[c.ip]? = some op) {f : Fault} {s' : State}
    (he : op.execute code.size c.ip { s with ip := c.ip + 1 } = .error f s') :
    step code s = .error f s' := by
  rw [step_eq (by rw [h.ip]; exact hop), h.ip, he]

theorem step_divisionByZero (h : c.Shown s) (hr : c.Roomy) {x : Int32} {st : List Int32}
    (hop : code[c.ip]? = some (.plain (.arith .div))) (hs : c.stack = 0 :: x :: st) :
    ∃ s', step code s = .error (.divisionByZero c.ip) s' := by
  have hn := h.jump (c.ip + 1)
  have hrn : ({ c with ip := c.ip + 1 } : Config).Roomy := hr
  obtain ⟨s₁, hp₁, -⟩ := hn.popOperands_run hrn hs
  exact ⟨s₁, step_eq_error h hop (bind_run hp₁)⟩

theorem step_outOfBounds (h : c.Shown s) (hr : c.Roomy) {st : List Int32}
    (hop : code[c.ip]? = some (.plain .loadWord)) (hs : c.stack = -1 :: st) :
    ∃ s', step code s = .error (.outOfBounds (-1)) s' := by
  have hn := h.jump (c.ip + 1)
  have hrn : ({ c with ip := c.ip + 1 } : Config).Roomy := hr
  obtain ⟨s₁, hp₁, -, -⟩ := hn.pop_run hrn hs
  have hword : s₁.word? (-1) = none := by
    rw [State.word?, show cell? (-1) = none by decide]
    rfl
  exact ⟨s₁, step_eq_error h hop ((bind_run hp₁).trans (bind_run_error (read_of_none hword)))⟩

theorem step_halt (h : c.Shown s) {v : Int32} {st : List Int32}
    (hop : code[c.ip]? = some (.plain .halt)) (hs : c.stack = v :: st) :
    ∃ s', step code s = .ok (some ⟨c.output, some v⟩) s' := by
  have hn := h.jump (c.ip + 1)
  have hword := hn.word (Shown.holds_top { c with ip := c.ip + 1 } hs)
  rw [← hn.sp] at hword
  refine ⟨{ s with ip := c.ip + 1, output := #[] }, ?_⟩
  rw [step_eq (by rw [h.ip]; exact hop), h.ip, ← h.output, ← hword]
  rfl

end FoolLang.Machine
