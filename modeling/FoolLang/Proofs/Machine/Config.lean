/-
The machine told by lists. A configuration has the stack and the heap as lists of words, and knows
at most the first free cell besides; addresses of stack words count from the bottom, so they stay
as the stack grows. A state of the machine shows a configuration when its memory is the heap, free
cells and the stack.
-/
import FoolLang.Proofs.Machine.Acts
import Mathlib.Algebra.Ring.Nat
import Mathlib.Data.List.Basic

namespace FoolLang.Machine

/-- A state of the machine, told by its stack, top first, and its heap. -/
structure Config where
  ip : Nat
  stack : List Int32
  heap : List Int32
  /-- The content of the first free cell, where it is known. -/
  spare : Option Int32
  fp : Int32
  ra : Int32
  tm : Int32
  output : List Int32
  /-- How many routines are running. -/
  level : Nat

/-- The address of the topmost of some words on the stack. -/
def stackAt (d : Nat) : Int32 := stackBase - .ofNat d

namespace Config

/-- At least one cell is free. -/
def Roomy (c : Config) : Prop := c.stack.length + c.heap.length < memSize

/-- What stands at an address, on the heap or on the stack. -/
inductive Holds (c : Config) : Int32 → Int32 → Prop
  | heap {j : Nat} {w : Int32} (h : c.heap[j]? = some w) : Holds c (.ofNat j) w
  | stack {d : Nat} {w : Int32} (h : c.stack.reverse[d]? = some w) : Holds c (stackAt (d + 1)) w

/-- A configuration has all the words of another one, at the same addresses. -/
def Extends (c c' : Config) : Prop :=
  (∃ top, c'.stack = top ++ c.stack) ∧ ∃ more, c'.heap = c.heap ++ more

theorem Extends.refl (c : Config) : c.Extends c := ⟨⟨[], rfl⟩, [], by simp⟩

theorem Holds.mono {c c' : Config} {a w : Int32} (h : c.Holds a w) (hc : c.Extends c') :
    c'.Holds a w := by
  obtain ⟨⟨top, ht⟩, more, hm⟩ := hc
  cases h with
  | heap h =>
    refine .heap ?_
    rw [hm, List.getElem?_append_left (List.getElem?_eq_some_iff.mp h).1, h]
  | stack h =>
    refine .stack ?_
    rw [ht, List.reverse_append,
      List.getElem?_append_left (List.getElem?_eq_some_iff.mp h).1, h]

/-- A state shows a configuration. -/
structure Shown (c : Config) (s : State) : Prop where
  memory : ∃ free, s.memory.toList = c.heap ++ free ++ c.stack ∧
    ∀ w, c.spare = some w → free = [] ∨ free.head? = some w
  ip : s.ip = c.ip
  sp : s.sp = stackAt c.stack.length
  hp : s.hp = .ofNat c.heap.length
  fp : s.fp = c.fp
  ra : s.ra = c.ra
  tm : s.tm = c.tm
  output : s.output.toList = c.output

end Config

/-! ## Addresses -/

theorem toInt_ofNat {n : Nat} (h : n < 2 ^ 31) : (Int32.ofNat n).toInt = n := Int32.toInt_ofNat_of_lt h

theorem stackAt_eq {d : Nat} (h : d ≤ memSize) : stackAt d = .ofNat (memSize - d) := by
  rw [stackAt, stackBase, Int32.ofNat_sub _ _ h]

theorem stackAt_succ (d : Nat) : stackAt d - 1 = stackAt (d + 1) := by
  unfold stackAt
  rw [Int32.ofNat_add, Int32.sub_sub]
  rfl

theorem stackAt_toInt {d : Nat} (h : d ≤ memSize) : (stackAt d).toInt = memSize - d := by
  have hm : memSize < 2 ^ 31 := by decide
  rw [stackAt_eq h, toInt_ofNat (by omega)]
  omega

/-- The cell of a small address. -/
theorem cell?_ofNat {n : Nat} (h : n < memSize) : cell? (.ofNat n) = some ⟨n, h⟩ := by
  have hm : memSize < 2 ^ 31 := by decide
  have hn : (Int32.ofNat n).toInt = n := toInt_ofNat (by omega)
  unfold cell?
  simp only [hn]
  rw [dif_pos ⟨by omega, by simpa using h⟩]
  rfl

theorem word?_ofNat (s : State) {n : Nat} (h : n < memSize) :
    s.word? (.ofNat n) = s.memory.toList[n]? := by
  rw [State.word?, cell?_ofNat h]
  simp

theorem write_run (s : State) {n : Nat} (hn : n < memSize) (v : Int32) :
    Machine.write (.ofNat n) v s = .ok () { s with memory := s.memory.set n v hn } :=
  write_of_cell (cell?_ofNat hn) v

/-! ## What is shown -/

namespace Config.Shown

variable {c : Config} {s : State} {v w a : Int32} {st : List Int32}

theorem length_eq {free : List Int32}
    (hf : s.memory.toList = c.heap ++ free ++ c.stack) :
    c.heap.length + free.length + c.stack.length = memSize := by
  have hlen := congrArg List.length hf
  simp at hlen
  omega

theorem stack_le (h : c.Shown s) : c.stack.length + c.heap.length ≤ memSize := by
  obtain ⟨free, hf, -⟩ := h.memory
  have hlen := length_eq hf
  omega

/-- A configuration is roomy where the stack pointer is above the heap. -/
theorem roomy_iff (h : c.Shown s) : c.Roomy ↔ s.hp < s.sp := by
  have hle := h.stack_le
  have hm : memSize < 2 ^ 31 := by decide
  rw [h.sp, h.hp, Int32.lt_iff_toInt_lt, stackAt_toInt (by omega), toInt_ofNat (by omega), Roomy]
  omega

/-- In a roomy configuration, some cell is free. -/
theorem exists_free (h : c.Shown s) (hr : c.Roomy) : ∃ x free,
    s.memory.toList = c.heap ++ x :: free ++ c.stack ∧ ∀ w, c.spare = some w → x = w := by
  obtain ⟨free, hf, hspare⟩ := h.memory
  have hlen := length_eq hf
  cases free with
  | nil => rw [Roomy] at hr; simp at hlen; omega
  | cons x free =>
    refine ⟨x, free, hf, fun w hw => ?_⟩
    rcases hspare w hw with hn | hn
    · cases hn
    · simpa using hn

/-- The instruction pointer may be moved. -/
theorem jump (h : c.Shown s) (n : Nat) : ({ c with ip := n } : Config).Shown { s with ip := n } :=
  ⟨h.memory, rfl, h.sp, h.hp, h.fp, h.ra, h.tm, h.output⟩

theorem word (h : c.Shown s) (hw : c.Holds a w) : s.word? a = some w := by
  obtain ⟨free, hf, -⟩ := h.memory
  have hlen := length_eq hf
  cases hw with
  | @heap j _ hj =>
    have hlt := (List.getElem?_eq_some_iff.mp hj).1
    rw [word?_ofNat s (by omega), hf, List.append_assoc, List.getElem?_append_left hlt, hj]
  | @stack d _ hd =>
    have hlt := (List.getElem?_eq_some_iff.mp hd).1
    rw [List.length_reverse] at hlt
    rw [stackAt_eq (by omega), word?_ofNat s (by omega), hf, List.getElem?_append_right (by simp; omega)]
    rw [List.getElem?_reverse hlt] at hd
    rw [← hd]
    congr 1
    simp only [List.length_append]
    omega

/-- Where words are pushed and the heap changes, what was on the stack stays. -/
theorem word_above {c' : Config} {s' : State} {top : List Int32} (h : c.Shown s) (h' : c'.Shown s')
    (hs : c'.stack = top ++ c.stack) (ha : s.sp ≤ a) : s'.word? a = s.word? a := by
  by_cases hin : 0 ≤ a.toInt ∧ a.toInt.toNat < memSize
  · have hword : ∀ u : State, u.word? a = u.memory.toList[a.toInt.toNat]? := fun u => by
      rw [State.word?, cell?, dif_pos hin]
      simp
    obtain ⟨free, hf, -⟩ := h.memory
    obtain ⟨free', hf', -⟩ := h'.memory
    have hlen := length_eq hf
    have hlen' := length_eq hf'
    rw [h.sp, Int32.le_iff_toInt_le, stackAt_toInt (by omega)] at ha
    rw [hs, List.length_append] at hlen'
    rw [hword, hword, hf, hf', hs, ← List.append_assoc,
      List.getElem?_append_right (by simp only [List.length_append]; omega),
      List.getElem?_append_right (by simp only [List.length_append]; omega)]
    congr 1
    simp only [List.length_append]
    omega
  · rw [State.word?, State.word?, cell?, dif_neg hin]
    rfl

theorem holds_top (c : Config) (hs : c.stack = v :: st) : c.Holds (stackAt c.stack.length) v := by
  rw [hs]
  exact .stack (by simp [hs])

theorem pop_run (h : c.Shown s) (hr : c.Roomy) (hs : c.stack = v :: st) :
    ∃ s', Machine.pop s = .ok v s' ∧ s'.memory = s.memory ∧ ({ c with stack := st } : Config).Shown s' := by
  obtain ⟨x, free, hf, hspare⟩ := h.exists_free hr
  refine ⟨{ s with sp := s.sp + 1 }, ?_, rfl, ⟨⟨x :: free ++ [v], ?_, ?_⟩, h.ip, ?_, h.hp, h.fp, h.ra, h.tm, h.output⟩⟩
  · apply pop_of_word
    rw [h.sp]
    exact h.word (holds_top c hs)
  · rw [hf, hs]; simp
  · intro w hw
    right
    simpa using hspare w hw
  · have hlen : c.stack.length = st.length + 1 := by rw [hs]; rfl
    rw [h.sp, hlen, ← stackAt_succ]
    simp

theorem push_run (h : c.Shown s) (hr : c.Roomy) (v : Int32) :
    ∃ s', Machine.push v s = .ok () s' ∧ ({ c with stack := v :: c.stack } : Config).Shown s' := by
  obtain ⟨x, free, hf, hspare⟩ := h.exists_free hr
  have hlen := length_eq hf
  simp only [List.length_cons] at hlen
  have hroom : ¬ s.sp - 1 < s.hp := by
    have hm : memSize < 2 ^ 31 := by decide
    rw [h.sp, h.hp, stackAt_succ, Int32.lt_iff_toInt_lt, stackAt_toInt (by omega), toInt_ofNat (by omega)]
    omega
  have haddr : s.sp - 1 = .ofNat (c.heap.length + free.length) := by
    rw [h.sp, stackAt_succ, stackAt_eq (by omega)]
    congr 1; omega
  have hn : c.heap.length + free.length < memSize := by omega
  refine ⟨{ s with sp := s.sp - 1, memory := s.memory.set (c.heap.length + free.length) v hn }, ?_,
    ⟨⟨(x :: free).dropLast, ?_, ?_⟩, h.ip, ?_, h.hp, h.fp, h.ra, h.tm, h.output⟩⟩
  · rw [push_of_not_lt hroom, haddr]
    exact write_run _ hn v
  · have hlast : (x :: free) = (x :: free).dropLast ++ [(x :: free).getLast (by simp)] :=
      (List.dropLast_append_getLast (by simp)).symm
    rw [Vector.toList_set, hf, hlast]
    have hidx : c.heap.length + free.length = (c.heap ++ (x :: free).dropLast).length := by simp
    rw [hidx, show c.heap ++ ((x :: free).dropLast ++ [(x :: free).getLast (by simp)]) ++ c.stack =
      (c.heap ++ (x :: free).dropLast) ++ ((x :: free).getLast (by simp) :: c.stack) by simp,
      List.set_append_right _ _ (Nat.le_refl _)]
    simp
  · intro w hw
    have hx := hspare w hw
    cases free with
    | nil => exact .inl rfl
    | cons y free => right; simpa using hx
  · rw [h.sp, stackAt_succ]; rfl

end Config.Shown

end FoolLang.Machine
