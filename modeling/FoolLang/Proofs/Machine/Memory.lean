/-
The stack pointer and the memory. However often a machine is run on, after a halt or a fault too, its stack
pointer stays in the memory or just above it, as long as no instruction is executed with the stack at the
bottom of the memory and the heap pointer below that: the push that only the heap pointer could refuse then
takes the stack pointer out. Code can bring this about by storing a negative heap pointer.
-/
import FoolLang.Proofs.Machine.Config
import Mathlib.Data.List.Induction
import Mathlib.Logic.Function.Iterate

namespace FoolLang.Machine

/-! ## Runs one after another -/

/-- The state that an action leaves, whether it gives a result or fails. -/
def Act.left {α : Type} (x : Act α) (s : State) : State :=
  match x s with
  | .ok _ s' | .error _ s' => s'

/-- The state after some instructions, whatever they end with. -/
def stateAfter (code : Array Op) (k : Nat) : State := (Act.left (step code))^[k] .initial

/-- The state after some runs of one machine, each of a limited number of instructions. -/
def afterRuns (code : Array Op) (limits : List Nat) : State :=
  limits.foldl (fun s n => (run code n s).2) .initial

variable {α β : Type} {s s' : State} {code : Array Op}

theorem run_left (code : Array Op) : ∀ (n : Nat) (s : State), ∃ k, (run code n s).2 = (Act.left (step code))^[k] s
  | 0, s => ⟨0, rfl⟩
  | n + 1, s => by
    rw [run]
    cases hs : step code s with
    | ok r s' =>
      have hleft : Act.left (step code) s = s' := by rw [Act.left, hs]
      cases r with
      | none =>
        obtain ⟨k, hk⟩ := run_left code n s'
        exact ⟨k + 1, by rw [Function.iterate_succ_apply, hleft]; exact hk⟩
      | some r => exact ⟨1, hleft.symm⟩
    | error f s' =>
      have hleft : Act.left (step code) s = s' := by rw [Act.left, hs]
      exact ⟨1, hleft.symm⟩

/-- The states that runs reach are those after some number of instructions. -/
theorem afterRuns_eq_stateAfter (code : Array Op) (limits : List Nat) :
    ∃ k, afterRuns code limits = stateAfter code k := by
  induction limits using List.reverseRecOn with
  | nil => exact ⟨0, rfl⟩
  | append_singleton limits n ih =>
    obtain ⟨k, hk⟩ := ih
    obtain ⟨m, hm⟩ := run_left code n (stateAfter code k)
    refine ⟨m + k, ?_⟩
    unfold afterRuns at hk ⊢
    rw [List.foldl_append, hk, List.foldl_cons, List.foldl_nil, hm]
    exact (Function.iterate_add_apply _ m k _).symm

/-! ## The stack pointer -/

/-- The stack pointer is in the memory, or just above it where the stack is empty. -/
def State.InMemory (s : State) : Prop := 0 ≤ s.sp ∧ s.sp ≤ stackBase

/-- No cell is left below the stack, and the heap pointer does not say so. -/
def State.Unguarded (s : State) : Prop := s.sp = 0 ∧ s.hp < 0

/-- In memory means: at most 10000 cells above its start. -/
theorem State.inMemory_iff : s.InMemory ↔ 0 ≤ s.sp.toInt ∧ s.sp.toInt ≤ memSize := by
  have hbase : stackBase.toInt = memSize := Int32.toInt_ofNat_of_lt (by decide)
  unfold State.InMemory
  rw [Int32.le_iff_toInt_le, Int32.le_iff_toInt_le, hbase]
  rfl

/-- At least one word has been popped. -/
def State.Lifted (s : State) : Prop := 0 < s.sp

theorem State.Lifted.not_unguarded (s : State) (h : s.Lifted) : ¬ s.Unguarded := by
  rintro ⟨hzero, -⟩
  unfold State.Lifted at h
  rw [hzero] at h
  exact absurd h (by decide)

/-! ## Steps of one word -/

theorem toInt_add_one {w : Int32} (h : 0 ≤ w.toInt ∧ w.toInt < memSize) : (w + 1).toInt = w.toInt + 1 := by
  have hm : memSize = 10000 := rfl
  rw [Int32.toInt_add]
  show Int.bmod (w.toInt + 1) (2 ^ 32) = w.toInt + 1
  apply Int.bmod_eq_of_le <;> omega

theorem toInt_sub_one {w : Int32} (h : 0 ≤ w.toInt ∧ w.toInt ≤ memSize) : (w - 1).toInt = w.toInt - 1 := by
  have hm : memSize = 10000 := rfl
  rw [Int32.toInt_sub]
  show Int.bmod (w.toInt - 1) (2 ^ 32) = w.toInt - 1
  apply Int.bmod_eq_of_le <;> omega

theorem sp_lt_of_word {v : Int32} (h : s.word? s.sp = some v) : s.sp.toInt < memSize := by
  unfold State.word? cell? at h
  split at h
  · omega
  · cases h

/-! ## What actions keep -/

/-- From states of one kind in memory, an action leads to memory, and where it succeeds to states of another kind. -/
def Keeps (P Q : State → Prop) (x : Act α) : Prop :=
  Leads (fun s => s.InMemory ∧ P s) x (fun _ s => s.InMemory ∧ Q s) State.InMemory

namespace Keeps

variable {P Q R : State → Prop} {x : Act α} {f : α → Act β}

theorem bind (h : Keeps P Q x) (hf : ∀ a, Keeps Q R (f a)) : Keeps P R (x >>= f) := Leads.bind h hf

theorem pure (a : α) (h : ∀ s, P s → Q s) : Keeps P Q (pure a) := Leads.pure a fun s hs => ⟨hs.1, h s hs.2⟩

theorem throw (e : Fault) : Keeps P Q (throw e : Act α) := Leads.throw e fun _ hs => hs.1

theorem get : Keeps P P get := Leads.get

/-- An action that leaves the stack pointer alone. -/
theorem modify {g : State → State} (hsp : ∀ s, (g s).sp = s.sp) (hQ : ∀ s, P s → Q (g s)) :
    Keeps P Q (modify g) := by
  refine Leads.modify fun s hs => ⟨?_, hQ s hs.2⟩
  unfold State.InMemory
  rw [hsp]
  exact hs.1

theorem imp {P' : State → Prop} (h : Keeps P Q x) (hP : ∀ s, P' s → P s) : Keeps P' Q x :=
  Leads.imp h (fun s hs => ⟨hs.1, hP s hs.2⟩) fun _ _ hs => hs

theorem read (a : Int32) : Keeps P P (read a) := by
  rintro s ⟨hm, hp⟩
  cases h : s.word? a with
  | some v => rw [read_of_word h]; exact ⟨hm, hp⟩
  | none => rw [read_of_none h]; exact hm

theorem write (a v : Int32) : Keeps P (fun _ => True) (write a v) := by
  rintro s ⟨hm, hp⟩
  cases h : cell? a with
  | some i => rw [write_of_cell h]; exact ⟨hm, trivial⟩
  | none => rw [write_of_none h]; exact hm

/-- The cell that is popped is in the memory, so the one above it is at most the first one above the memory. -/
theorem pop : Keeps P State.Lifted pop := by
  rintro s ⟨hm, hp⟩
  cases h : s.word? s.sp with
  | none => rw [pop_of_none h]; exact hm
  | some v =>
    rw [pop_of_word h]
    rw [State.inMemory_iff] at hm
    have hcell := sp_lt_of_word h
    have hup : (s.sp + 1).toInt = s.sp.toInt + 1 := toInt_add_one (by omega)
    constructor
    · rw [State.inMemory_iff]
      show 0 ≤ (s.sp + 1).toInt ∧ (s.sp + 1).toInt ≤ memSize
      omega
    · show 0 < s.sp + 1
      rw [Int32.lt_iff_toInt_lt, hup]
      show 0 < s.sp.toInt + 1
      omega

/-- Where the stack pointer is 0, a heap pointer that is not negative refuses a push. -/
theorem push (v : Int32) : Keeps (fun s => ¬ s.Unguarded) (fun _ => True) (push v) := by
  rintro s ⟨hm, hguard⟩
  by_cases hlt : s.sp - 1 < s.hp
  · rw [push_of_lt hlt]; exact hm
  · rw [push_of_not_lt hlt]
    rw [State.inMemory_iff] at hm
    have hm' : memSize < 2 ^ 31 := by decide
    have hdown : (s.sp - 1).toInt = s.sp.toInt - 1 := toInt_sub_one (by omega)
    rw [Int32.lt_iff_toInt_lt, hdown] at hlt
    have hpos : s.sp.toInt ≠ 0 := by
      intro hzero
      apply hguard
      constructor
      · exact Int32.toInt_inj.mp hzero
      · rw [Int32.lt_iff_toInt_lt]
        show s.hp.toInt < 0
        omega
    refine write (P := fun _ => True) (s.sp - 1) v { s with sp := s.sp - 1 } ⟨?_, trivial⟩
    rw [State.inMemory_iff]
    show 0 ≤ (s.sp - 1).toInt ∧ (s.sp - 1).toInt ≤ memSize
    omega

theorem popOperands : Keeps P State.Lifted popOperands :=
  bind pop fun _ => bind (pop (P := State.Lifted)) fun _ => pure _ fun _ h => h

end Keeps

/-! ## Instructions -/

/-- What an instruction ends with when it has not halted the machine. -/
theorem Keeps.goOn {P : State → Prop} : Keeps P (fun _ => True) (Pure.pure none : Act (Option Result)) :=
  .pure _ fun _ _ => trivial

theorem Keeps.push_of_lifted (v : Int32) : Keeps State.Lifted (fun _ => True) (Machine.push v) :=
  (Keeps.push v).imp State.Lifted.not_unguarded

theorem Keeps.jumpTo (size : Nat) (a : Int32) : Keeps State.Lifted (fun _ => True) (Machine.jumpTo size a) := by
  unfold Machine.jumpTo
  split
  · exact .modify (fun _ => rfl) fun _ _ => trivial
  · exact .throw _

theorem Plain.execute_keeps (size here : Nat) (p : Plain) :
    Keeps (fun s => ¬ s.Unguarded) (fun _ => True) (p.execute size here) := by
  cases p with
  | pop => exact .bind .pop fun _ => .goOn
  | arith a =>
    refine .bind .popOperands fun x => ?_
    obtain ⟨l, r⟩ := x
    by_cases hzero : a = .div ∧ r = 0
    · show Keeps _ _ (if a = .div ∧ r = 0 then _ else _)
      rw [if_pos hzero]
      exact .throw _
    · show Keeps _ _ (if a = .div ∧ r = 0 then _ else _)
      rw [if_neg hzero]
      exact .bind (.push_of_lifted _) fun _ => .goOn
  | storeWord => exact .bind .pop fun a => .bind (.pop (P := State.Lifted)) fun v => .bind (.write a v) fun _ => .goOn
  | loadWord => exact .bind .pop fun a => .bind (.read a) fun v => .bind (.push_of_lifted v) fun _ => .goOn
  | jumpSubroutine =>
    refine .bind .pop fun a => .bind (.modify (Q := State.Lifted) (fun _ => rfl) fun _ h => h) fun _ => ?_
    exact .bind (.jumpTo size a) fun _ => .goOn
  | load r => exact .bind .get fun s => .bind (.push _) fun _ => .goOn
  | store r =>
    refine .bind .pop fun v => .bind (.modify (Q := fun _ => True) ?_ fun _ _ => trivial) fun _ => .goOn
    intro s
    cases r <;> rfl
  | copyFp => exact .bind (.modify (Q := fun _ => True) (fun _ => rfl) fun _ _ => trivial) fun _ => .goOn
  | print =>
    exact .bind .get fun s => .bind (.read s.sp) fun v =>
      .bind (.modify (Q := fun _ => True) (fun _ => rfl) fun _ _ => trivial) fun _ => .goOn
  | halt =>
    rintro s ⟨hm, -⟩
    exact ⟨hm, trivial⟩

theorem Op.execute_keeps (size here : Nat) (op : Op) :
    Keeps (fun s => ¬ s.Unguarded) (fun _ => True) (op.execute size here) := by
  cases op with
  | plain p => exact p.execute_keeps size here
  | push n => exact .bind (.push n) fun _ => .goOn
  | jump j target =>
    cases j with
    | always => exact .bind (.modify (Q := fun _ => True) (fun _ => rfl) fun _ _ => trivial) fun _ => .goOn
    | ifEqual | ifLessEqual =>
      refine .bind .popOperands fun x => ?_
      obtain ⟨l, r⟩ := x
      dsimp only
      split
      · exact .bind (.modify (Q := fun _ => True) (fun _ => rfl) fun _ _ => trivial) fun _ => .goOn
      · exact .goOn

/-- An instruction keeps the stack pointer in the memory, whether it succeeds or fails, but for one state. -/
theorem step_inMemory (code : Array Op) (hm : s.InMemory) (hguard : ¬ s.Unguarded) :
    (Act.left (step code) s).InMemory := by
  cases hop : code[s.ip]? with
  | none =>
    unfold Act.left
    rw [step_of_none hop]
    exact hm
  | some op =>
    have hkeeps := op.execute_keeps code.size s.ip { s with ip := s.ip + 1 } ⟨hm, hguard⟩
    unfold Act.left
    rw [step_eq hop]
    cases hx : op.execute code.size s.ip { s with ip := s.ip + 1 } with
    | ok r s' => rw [hx] at hkeeps; exact hkeeps.1
    | error f s' => rw [hx] at hkeeps; exact hkeeps

/-! ## Every state -/

/-- Where the stack pointer is in the memory, it is above an empty stack or at a cell. -/
theorem State.InMemory.empty_or_cell (h : s.InMemory) : s.sp = stackBase ∨ ∃ i, cell? s.sp = some i := by
  have hbase : stackBase.toInt = memSize := Int32.toInt_ofNat_of_lt (by decide)
  rw [State.inMemory_iff] at h
  by_cases hlt : s.sp.toInt < memSize
  · right
    have hcell : 0 ≤ s.sp.toInt ∧ s.sp.toInt.toNat < memSize := by omega
    exact ⟨⟨s.sp.toInt.toNat, hcell.2⟩, dif_pos hcell⟩
  · left
    apply Int32.toInt_inj.mp
    omega

theorem stateAfter_succ (code : Array Op) (k : Nat) :
    stateAfter code (k + 1) = Act.left (step code) (stateAfter code k) :=
  Function.iterate_succ_apply' _ k _

/-- The stack pointer leaves the memory only through an instruction begun in an unguarded state. -/
theorem stateAfter_inMemory (code : Array Op) (k : Nat) :
    (stateAfter code k).InMemory ∨ ∃ j < k, (stateAfter code j).Unguarded := by
  induction k with
  | zero =>
    left
    show State.initial.InMemory
    constructor
    · show 0 ≤ stackBase
      decide
    · show stackBase ≤ stackBase
      decide
  | succ k ih =>
    rcases ih with hm | ⟨j, hj, hunguarded⟩
    · by_cases hguard : (stateAfter code k).Unguarded
      · exact .inr ⟨k, Nat.lt_succ_self k, hguard⟩
      · left
        rw [stateAfter_succ]
        exact step_inMemory code hm hguard
    · exact .inr ⟨j, Nat.lt_succ_of_lt hj, hunguarded⟩

/--
However often a machine is run on, each state it comes to has the stack pointer at a memory cell or just above
the memory, unless an instruction was begun before that with the stack pointer at 0 and a negative heap pointer.
-/
theorem stackPointer_inMemory (code : Array Op) :
    (∀ limits, ∃ k, afterRuns code limits = stateAfter code k) ∧
    ∀ k, ((stateAfter code k).InMemory ∧
        ((stateAfter code k).sp = stackBase ∨ ∃ i, cell? (stateAfter code k).sp = some i)) ∨
      ∃ j < k, (stateAfter code j).Unguarded := by
  constructor
  · exact afterRuns_eq_stateAfter code
  · intro k
    rcases stateAfter_inMemory code k with hm | hunguarded
    · exact .inl ⟨hm, hm.empty_or_cell⟩
    · exact .inr hunguarded

/-! ## A stack pointer outside of the memory -/

/-- Makes the heap pointer negative, then pushes for ever. -/
def overrun : Array Op := #[.push (-1), .plain (.store .hp), .push 0, .jump .always 2]

/-- About to push, with some cells left and a heap pointer of -1. -/
def State.Pushing (m : Nat) (s : State) : Prop := s.ip = 2 ∧ s.hp = -1 ∧ s.sp = .ofNat m

/-- The first two instructions leave the stack empty. -/
theorem overrun_start (hip : s.ip = 0) (hsp : s.sp = .ofNat memSize) (hhp : s.hp = 0) :
    ∃ s', run overrun 2 s = (.unfinished, s') ∧ s'.Pushing memSize := by
  have hlast : memSize - 1 < memSize := by decide
  have hdown : s.sp - 1 = .ofNat (memSize - 1) := by rw [hsp]; decide
  have hroom : ¬ s.sp - 1 < s.hp := by rw [hdown, hhp]; decide
  have hpush : push (-1) { s with ip := s.ip + 1 } = .ok () { s with
      ip := s.ip + 1, sp := .ofNat (memSize - 1), memory := s.memory.set (memSize - 1) (-1) hlast } := by
    refine (push_of_not_lt (s := { s with ip := s.ip + 1 }) hroom (-1)).trans ?_
    rw [hdown]
    exact write_run _ hlast (-1)
  have hop : overrun[s.ip]? = some (.push (-1)) := by rw [hip]; rfl
  have hstore : overrun[s.ip + 1]? = some (.plain (.store .hp)) := by rw [hip]; rfl
  have htop : State.word?
      { s with
        ip := s.ip + 1 + 1, sp := .ofNat (memSize - 1), memory := s.memory.set (memSize - 1) (-1) hlast }
      (.ofNat (memSize - 1)) = some (-1) := by
    have hlen : memSize - 1 < s.memory.toList.length := by rw [Vector.length_toList]; exact hlast
    rw [word?_ofNat _ hlast, Vector.toList_set]
    exact List.getElem?_set_self hlen
  have hsecond := step_eq (s := { s with
    ip := s.ip + 1, sp := .ofNat (memSize - 1), memory := s.memory.set (memSize - 1) (-1) hlast }) hstore
  have hpop := hsecond.trans (Sequencing.bind_run (pop_of_word htop))
  rw [run_succ_of_ok ((step_eq hop).trans (Sequencing.bind_run hpush)), run_succ_of_ok hpop]
  refine ⟨_, rfl, ?_, rfl, ?_⟩
  · show s.ip + 1 + 1 = 2
    rw [hip]
  · show Int32.ofNat (memSize - 1) + 1 = .ofNat memSize
    decide

/-- A push and the jump back to it take one cell. -/
theorem overrun_push {m : Nat} (hm : m + 1 ≤ memSize) (h : s.Pushing (m + 1)) :
    ∃ s', run overrun 2 s = (.unfinished, s') ∧ s'.Pushing m := by
  obtain ⟨hip, hhp, hsp⟩ := h
  have hbound : memSize < 2 ^ 31 := by decide
  have hdown : s.sp - 1 = .ofNat m := by
    rw [hsp, Int32.ofNat_add]
    exact Int32.add_sub_cancel _ _
  have hroom : ¬ s.sp - 1 < s.hp := by
    rw [hdown, hhp, Int32.lt_iff_toInt_lt, toInt_ofNat (by omega)]
    show ¬ (m : Int) < -1
    omega
  have hpush : push 0 { s with ip := s.ip + 1 } =
      .ok () { s with ip := s.ip + 1, sp := .ofNat m, memory := s.memory.set m 0 hm } := by
    refine (push_of_not_lt (s := { s with ip := s.ip + 1 }) hroom 0).trans ?_
    rw [hdown]
    exact write_run _ hm 0
  have hop : overrun[s.ip]? = some (.push 0) := by rw [hip]; rfl
  have hjump : overrun[s.ip + 1]? = some (.jump .always 2) := by rw [hip]; rfl
  refine ⟨{ s with ip := 2, sp := .ofNat m, memory := s.memory.set m 0 hm }, ?_, rfl, hhp, rfl⟩
  have hsecond := step_eq (s := { s with ip := s.ip + 1, sp := .ofNat m, memory := s.memory.set m 0 hm }) hjump
  rw [run_succ_of_ok ((step_eq hop).trans (Sequencing.bind_run hpush)), run_succ_of_ok hsecond]
  rfl

/-- The pushes go on until no cell is left. -/
theorem overrun_pushes : ∀ {m : Nat} {s : State}, m ≤ memSize → s.Pushing m →
    ∃ s', run overrun (2 * m) s = (.unfinished, s') ∧ s'.Pushing 0
  | 0, s, _, h => ⟨s, rfl, h⟩
  | m + 1, s, hm, h => by
    obtain ⟨s₁, hrun, h₁⟩ := overrun_push hm h
    obtain ⟨s₂, hrun', h₂⟩ := overrun_pushes (by omega) h₁
    refine ⟨s₂, ?_, h₂⟩
    rw [show 2 * (m + 1) = 2 + 2 * m by omega, run_add_of_unfinished hrun]
    exact hrun'

/-- With no cell left, the heap pointer does not refuse the push, and it fails after the stack pointer has moved. -/
theorem overrun_fault (h : s.Pushing 0) :
    ∃ s', run overrun 1 s = (.faulted (.outOfBounds (-1)), s') ∧ s'.sp = -1 := by
  obtain ⟨hip, hhp, hsp⟩ := h
  have hroom : ¬ s.sp - 1 < s.hp := by
    rw [hsp, hhp]
    decide
  have hpush : push 0 { s with ip := s.ip + 1 } = .error (.outOfBounds (-1)) { s with ip := s.ip + 1, sp := -1 } := by
    refine (push_of_not_lt (s := { s with ip := s.ip + 1 }) hroom 0).trans ?_
    rw [hsp]
    exact write_of_none rfl 0
  have hop : overrun[s.ip]? = some (.push 0) := by rw [hip]; rfl
  refine ⟨{ s with ip := s.ip + 1, sp := -1 }, ?_, rfl⟩
  exact run_succ_of_error ((step_eq hop).trans (Sequencing.bind_run_error hpush))

theorem afterRuns_singleton (code : Array Op) (n : Nat) : afterRuns code [n] = (run code n .initial).2 := rfl

/-- A run can leave the stack pointer outside of the memory. -/
theorem overrun_not_inMemory : ¬ (afterRuns overrun [2 * memSize + 3]).InMemory ∧
    (run overrun (2 * memSize + 3) .initial).1 = .faulted (.outOfBounds (-1)) := by
  obtain ⟨s, hrun, hpushing⟩ := overrun_start (s := .initial) rfl rfl rfl
  obtain ⟨s', hrun', hempty⟩ := overrun_pushes (Nat.le_refl _) hpushing
  obtain ⟨t, hfault, hsp⟩ := overrun_fault hempty
  have hall : run overrun (2 * memSize + 3) .initial = (.faulted (.outOfBounds (-1)), t) := by
    have hsteps : 2 * memSize + 3 = 2 + (2 * memSize + 1) := by omega
    rw [hsteps, run_add_of_unfinished hrun, run_add_of_unfinished hrun']
    exact hfault
  constructor
  · rw [afterRuns_singleton, hall]
    rintro ⟨hlow, -⟩
    dsimp only at hlow
    rw [hsp] at hlow
    exact absurd hlow (by decide)
  · rw [hall]

end FoolLang.Machine
