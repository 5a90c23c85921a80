/-
The machine told by numbers. A snapshot has the pointers as numbers and the memory as a function, so it tells
of states in which the stack stands close to the heap too: a push writes the cell below the stack, also where
that is the free cell at the end of the heap, and overflows where the stack stands at the heap pointer.
-/
import FoolLang.Proofs.Machine.Memory
import Mathlib.Logic.Function.Basic

namespace FoolLang.Machine

/-- A state of the machine, told by numbers. -/
structure Snapshot where
  ip : Nat
  sp : Nat
  hp : Nat
  cells : Nat → Int32
  fp : Int32
  ra : Int32
  tm : Int32
  output : Array Int32

namespace Snapshot

/-- A state shows a snapshot. -/
structure Shown (m : Snapshot) (s : State) : Prop where
  ip : s.ip = m.ip
  sp : s.sp = .ofNat m.sp
  hp : s.hp = .ofNat m.hp
  sp_le : m.sp ≤ memSize
  hp_le : m.hp ≤ memSize
  cells : ∀ i < memSize, s.memory.toList[i]? = some (m.cells i)
  fp : s.fp = m.fp
  ra : s.ra = m.ra
  tm : s.tm = m.tm
  output : s.output = m.output

/-- The content of a register. -/
def register (m : Snapshot) : Register → Int32
  | .ra => m.ra
  | .tm => m.tm
  | .fp => m.fp
  | .hp => .ofNat m.hp

/-- A word written to a cell. -/
def wrote (m : Snapshot) (i : Nat) (v : Int32) : Snapshot := { m with cells := Function.update m.cells i v }

variable {m m' m'' : Snapshot} {s : State} {v : Int32} {i : Nat}

theorem wrote_self : (m.wrote i v).cells i = v := by simp [wrote]

theorem wrote_of_ne {j : Nat} (h : j ≠ i) : (m.wrote i v).cells j = m.cells j := by simp [wrote, h]

/-! ## Actions -/

theorem Shown.word (h : m.Shown s) (hi : i < memSize) : s.word? (.ofNat i) = some (m.cells i) := by
  rw [word?_ofNat s hi, h.cells i hi]

/-- The instruction pointer may be moved. -/
theorem Shown.jump (h : m.Shown s) (n : Nat) : ({ m with ip := n } : Snapshot).Shown { s with ip := n } :=
  ⟨rfl, h.sp, h.hp, h.sp_le, h.hp_le, h.cells, h.fp, h.ra, h.tm, h.output⟩

theorem Shown.pop_run (h : m.Shown s) (hsp : m.sp < memSize) :
    ∃ s', pop s = .ok (m.cells m.sp) s' ∧ ({ m with sp := m.sp + 1 } : Snapshot).Shown s' := by
  refine ⟨{ s with sp := s.sp + 1 }, pop_of_word ?_, h.ip, ?_, h.hp, hsp, h.hp_le, h.cells, h.fp, h.ra, h.tm, h.output⟩
  · rw [h.sp]
    exact h.word hsp
  · rw [h.sp]
    simp

theorem Shown.popOperands_run (h : m.Shown s) (hsp : m.sp + 1 < memSize) :
    ∃ s', popOperands s = .ok (m.cells (m.sp + 1), m.cells m.sp) s' ∧
      ({ m with sp := m.sp + 2 } : Snapshot).Shown s' := by
  obtain ⟨s₁, hp₁, h₁⟩ := h.pop_run (by omega)
  obtain ⟨s₂, hp₂, h₂⟩ := h₁.pop_run hsp
  exact ⟨s₂, (Sequencing.bind_run hp₁).trans (Sequencing.bind_run hp₂), h₂⟩

theorem Shown.write_run (h : m.Shown s) (hi : i < memSize) (v : Int32) :
    ∃ s', write (.ofNat i) v s = .ok () s' ∧ (m.wrote i v).Shown s' := by
  refine ⟨_, Machine.write_run s hi v, h.ip, h.sp, h.hp, h.sp_le, h.hp_le, fun j hj => ?_, h.fp, h.ra, h.tm, h.output⟩
  rw [Vector.toList_set]
  by_cases hji : j = i
  · subst hji
    have hlen : j < s.memory.toList.length := by rw [Vector.length_toList]; exact hj
    rw [List.getElem?_set_self hlen, wrote_self]
  · rw [List.getElem?_set_ne (Ne.symm hji), h.cells j hj, wrote_of_ne hji]

/-- A push writes the cell below the stack, unless the stack stands at the heap pointer. -/
theorem Shown.push_run (h : m.Shown s) (hgap : m.hp < m.sp) (v : Int32) :
    ∃ s', push v s = .ok () s' ∧ ({ m.wrote (m.sp - 1) v with sp := m.sp - 1 } : Snapshot).Shown s' := by
  have hle := h.sp_le
  have hm : memSize < 2 ^ 31 := by decide
  have hdown : s.sp - 1 = .ofNat (m.sp - 1) := by
    rw [h.sp]
    exact (Int32.ofNat_sub _ _ (show 1 ≤ m.sp by omega)).symm
  -- The guard compares words, which are small enough here to be compared as numbers.
  have hroom : ¬ s.sp - 1 < s.hp := by
    rw [hdown, h.hp, Int32.lt_iff_toInt_lt, toInt_ofNat (by omega), toInt_ofNat (by omega)]
    omega
  have hbelow : ({ m with sp := m.sp - 1 } : Snapshot).Shown { s with sp := s.sp - 1 } :=
    ⟨h.ip, hdown, h.hp, by show m.sp - 1 ≤ memSize; omega, h.hp_le, h.cells, h.fp, h.ra, h.tm, h.output⟩
  obtain ⟨s', hwrite, hs'⟩ := hbelow.write_run (show m.sp - 1 < memSize by omega) v
  rw [← hdown] at hwrite
  exact ⟨s', (push_of_not_lt hroom v).trans hwrite, hs'⟩

theorem Shown.push_overflow (h : m.Shown s) (hgap : m.sp ≤ m.hp) (v : Int32) :
    push v s = .error (.stackOverflow s.sp s.hp) s := by
  apply push_of_lt
  have hle := h.sp_le
  have hle' := h.hp_le
  have hm : memSize = 10000 := rfl
  have hsp : s.sp.toInt = m.sp := by rw [h.sp]; exact toInt_ofNat (by omega)
  rw [Int32.lt_iff_toInt_lt, toInt_sub_one (by omega), hsp, h.hp, toInt_ofNat (by omega)]
  omega

/-! ## States that the machine admits -/

end Snapshot

/-- The stack is in the memory, above the heap. -/
structure State.Admitted (s : State) : Prop where
  hp : 0 ≤ s.hp
  gap : s.hp ≤ s.sp
  sp : s.sp ≤ stackBase

theorem ofNat_toNat {a : Int32} (h : 0 ≤ a.toInt) : Int32.ofNat a.toInt.toNat = a := by
  have hlt := a.toInt_lt
  apply Int32.toInt_inj.mp
  rw [toInt_ofNat (by omega), Int.toNat_of_nonneg h]

/-- A word stands at an address in the memory. -/
theorem cell_of_word {s : State} {a w : Int32} (h : s.word? a = some w) : 0 ≤ a.toInt ∧ a.toInt.toNat < memSize := by
  unfold State.word? cell? at h
  split at h
  · assumption
  · cases h

/-- What a state shows. -/
def State.snapshot (s : State) : Snapshot where
  ip := s.ip
  sp := s.sp.toInt.toNat
  hp := s.hp.toInt.toNat
  cells i := s.memory.toList.getD i 0
  fp := s.fp
  ra := s.ra
  tm := s.tm
  output := s.output

theorem State.Admitted.bounds {s : State} (h : s.Admitted) :
    0 ≤ s.hp.toInt ∧ s.hp.toInt ≤ s.sp.toInt ∧ s.sp.toInt ≤ memSize := by
  have hbase : stackBase.toInt = memSize := Int32.toInt_ofNat_of_lt (by decide)
  refine ⟨Int32.le_iff_toInt_le.mp h.hp, Int32.le_iff_toInt_le.mp h.gap, ?_⟩
  rw [← hbase]
  exact Int32.le_iff_toInt_le.mp h.sp

theorem State.Admitted.shown {s : State} (h : s.Admitted) : s.snapshot.Shown s := by
  obtain ⟨hhp, hgap, hsp⟩ := h.bounds
  refine ⟨rfl, (ofNat_toNat (by omega)).symm, (ofNat_toNat hhp).symm, ?_, ?_, fun i hi => ?_, rfl, rfl, rfl, rfl⟩
  · show s.sp.toInt.toNat ≤ memSize
    omega
  · show s.hp.toInt.toNat ≤ memSize
    omega
  · have hlen : i < s.memory.toList.length := by rw [Vector.length_toList]; exact hi
    show s.memory.toList[i]? = some (s.memory.toList.getD i 0)
    rw [List.getD_eq_getElem?_getD, List.getElem?_eq_getElem hlen, Option.getD_some]

namespace Snapshot

/-- Where the cells of two snapshots agree, so do the words of the states that show them. -/
theorem Shown.word_eq {m m' : Snapshot} {s t : State} {a : Int32} (h : m.Shown s) (h' : m'.Shown t)
    (hcell : 0 ≤ a.toInt → m'.cells a.toInt.toNat = m.cells a.toInt.toNat) : t.word? a = s.word? a := by
  by_cases hin : 0 ≤ a.toInt ∧ a.toInt.toNat < memSize
  · rw [← ofNat_toNat hin.1, h.word hin.2, h'.word hin.2, hcell hin.1]
  · have hnone : cell? a = none := dif_neg hin
    rw [State.word?, State.word?, hnone]
    rfl

variable {m m' m'' : Snapshot} {v : Int32} {i : Nat}

/-! ## Steps -/

/-- From every state that shows a snapshot, some steps lead to one that shows another. -/
def Goes (code : Array Op) (n : Nat) (m m' : Snapshot) : Prop :=
  ∀ s, m.Shown s → ∃ s', run code n s = (.unfinished, s') ∧ m'.Shown s'

variable {code : Array Op} {n k : Nat} {a j : Nat} {op : Op}

theorem Goes.refl (m : Snapshot) : Goes code 0 m m := fun s hs => ⟨s, rfl, hs⟩

theorem Goes.trans (h : Goes code n m m') (h' : Goes code k m' m'') : Goes code (n + k) m m'' := by
  intro s hs
  obtain ⟨t, ht, hst⟩ := h s hs
  obtain ⟨u, hu, hsu⟩ := h' t hst
  exact ⟨u, (run_add_of_unfinished ht k).trans hu, hsu⟩

/-- One step, of an instruction that is executed from behind itself. -/
theorem Goes.of_execute (hop : code[m.ip]? = some op)
    (h : ∀ s, ({ m with ip := m.ip + 1 } : Snapshot).Shown s →
      ∃ s', op.execute code.size m.ip s = .ok none s' ∧ m'.Shown s') : Goes code 1 m m' := by
  intro s hs
  have hop' : code[s.ip]? = some op := by rw [hs.ip]; exact hop
  obtain ⟨s', hx, hs'⟩ := h _ (hs.jump (m.ip + 1))
  have hstep := step_eq hop'
  rw [hs.ip] at hstep
  exact ⟨s', run_succ_of_ok (hstep.trans hx), hs'⟩

/-- The snapshot with the instruction pointer, the stack pointer and the cells that instructions change. -/
def put (m : Snapshot) (ip sp : Nat) (cells : Nat → Int32) : Snapshot := { m with ip, sp, cells }

variable {ip p : Nat} {cells : Nat → Int32} {w x y : Int32}

theorem Goes.push (hop : code[ip]? = some (.push v)) (hgap : m.hp ≤ p) :
    Goes code 1 (m.put ip (p + 1) cells) (m.put (ip + 1) p (Function.update cells p v)) := by
  refine .of_execute hop fun s hs => ?_
  obtain ⟨s', hp, hs'⟩ := hs.push_run (Nat.lt_succ_of_le hgap) v
  exact ⟨s', Sequencing.bind_run hp, hs'⟩

theorem Goes.load {r : Register} (hop : code[ip]? = some (.plain (.load r))) (hgap : m.hp ≤ p) :
    Goes code 1 (m.put ip (p + 1) cells) (m.put (ip + 1) p (Function.update cells p (m.register r))) := by
  refine .of_execute hop fun s hs => ?_
  have hreg : s.register r = m.register r := by
    cases r <;> first | exact hs.ra | exact hs.tm | exact hs.fp | exact hs.hp
  obtain ⟨s', hp, hs'⟩ := hs.push_run (Nat.lt_succ_of_le hgap) (m.register r)
  rw [← hreg] at hp
  exact ⟨s', Sequencing.bind_run hp, hs'⟩

/-- The word at the address on top takes its place. -/
theorem Goes.loadWord (hop : code[ip]? = some (.plain .loadWord)) (ha : cells p = .ofNat i) (hw : cells i = w)
    (hi : i < memSize) (hsp : p < memSize) (hgap : m.hp ≤ p) :
    Goes code 1 (m.put ip p cells) (m.put (ip + 1) p (Function.update cells p w)) := by
  refine .of_execute hop fun s hs => ?_
  obtain ⟨s₁, hp₁, h₁⟩ := hs.pop_run hsp
  have hread : read (cells p) s₁ = .ok w s₁ := by
    rw [ha, ← hw]
    exact read_of_word (h₁.word hi)
  obtain ⟨s', hp, hs'⟩ := h₁.push_run (Nat.lt_succ_of_le hgap) w
  exact ⟨s', (Sequencing.bind_run hp₁).trans ((Sequencing.bind_run hread).trans (Sequencing.bind_run hp)), hs'⟩

/-- The word below the top is written to the address on top. -/
theorem Goes.storeWord (hop : code[ip]? = some (.plain .storeWord)) (ha : cells p = .ofNat i)
    (hw : cells (p + 1) = w) (hi : i < memSize) (hsp : p + 1 < memSize) :
    Goes code 1 (m.put ip p cells) (m.put (ip + 1) (p + 2) (Function.update cells i w)) := by
  refine .of_execute hop fun s hs => ?_
  obtain ⟨s₁, hp₁, h₁⟩ := hs.pop_run (show p < memSize by omega)
  obtain ⟨s₂, hp₂, h₂⟩ := h₁.pop_run hsp
  obtain ⟨s', hwrite, hs'⟩ := h₂.write_run hi w
  rw [← hw] at hwrite hs'
  rw [← ha] at hwrite
  rw [← hw]
  exact ⟨s', (Sequencing.bind_run hp₁).trans ((Sequencing.bind_run hp₂).trans (Sequencing.bind_run hwrite)), hs'⟩

theorem Goes.arith {f : Arith} (hop : code[ip]? = some (.plain (.arith f))) (hf : f ≠ .div)
    (hx : cells (p + 1) = x) (hy : cells p = y) (hsp : p + 1 < memSize) (hgap : m.hp ≤ p) :
    Goes code 1 (m.put ip p cells) (m.put (ip + 1) (p + 1) (Function.update cells (p + 1) (f.apply x y))) := by
  refine .of_execute hop fun s hs => ?_
  obtain ⟨s₁, hp₁, h₁⟩ := hs.popOperands_run hsp
  obtain ⟨s', hp, hs'⟩ := h₁.push_run (show m.hp < p + 2 by omega) (f.apply x y)
  refine ⟨s', (Sequencing.bind_run hp₁).trans ?_, hs'⟩
  show (if f = .div ∧ cells p = 0 then throw (.divisionByZero ip)
    else Machine.push (f.apply (cells (p + 1)) (cells p)) >>= fun _ => pure none : Act (Option Result)).run s₁ = _
  rw [if_neg fun hdiv => hf hdiv.1, hx, hy]
  exact Sequencing.bind_run hp

/-- The word on top becomes the heap pointer. -/
theorem Goes.storeHp (hop : code[ip]? = some (.plain (.store .hp))) (ha : cells p = .ofNat i) (hi : i ≤ memSize)
    (hsp : p < memSize) : Goes code 1 (m.put ip p cells) { m.put (ip + 1) (p + 1) cells with hp := i } := by
  refine .of_execute hop fun s hs => ?_
  obtain ⟨s₁, hp₁, h₁⟩ := hs.pop_run hsp
  have hp₁ : pop s = .ok (cells p) s₁ := hp₁
  rw [ha] at hp₁
  exact ⟨_, Sequencing.bind_run hp₁, h₁.ip, h₁.sp, rfl, h₁.sp_le, hi, h₁.cells, h₁.fp, h₁.ra, h₁.tm, h₁.output⟩

/-- The word on top goes to the temporary register. -/
theorem Goes.storeTm (hop : code[ip]? = some (.plain (.store .tm))) (ha : cells p = w) (hsp : p < memSize) :
    Goes code 1 (m.put ip p cells) (put { m with tm := w } (ip + 1) (p + 1) cells) := by
  refine .of_execute hop fun s hs => ?_
  obtain ⟨s₁, hp₁, h₁⟩ := hs.pop_run hsp
  have hp₁ : pop s = .ok (cells p) s₁ := hp₁
  rw [ha] at hp₁
  exact ⟨_, Sequencing.bind_run hp₁, h₁.ip, h₁.sp, h₁.hp, h₁.sp_le, h₁.hp_le, h₁.cells, h₁.fp, h₁.ra, rfl, h₁.output⟩

theorem Goes.jump {t : Nat} (hop : code[ip]? = some (.jump .always t)) :
    Goes code 1 (m.put ip p cells) (m.put t p cells) :=
  .of_execute hop fun _ hs => ⟨_, rfl, hs.jump t⟩

/-- A jump on the two words on top, which are dropped. -/
theorem Goes.branch {f : Jump} {t : Nat} (hop : code[ip]? = some (.jump f t)) (hf : f ≠ .always)
    (hx : cells (p + 1) = x) (hy : cells p = y) (hsp : p + 1 < memSize) :
    Goes code 1 (m.put ip p cells) (m.put (if f.taken x y then t else ip + 1) (p + 2) cells) := by
  refine .of_execute hop fun s hs => ?_
  obtain ⟨s₁, hp₁, h₁⟩ := hs.popOperands_run hsp
  have hp₁ : popOperands s = .ok (cells (p + 1), cells p) s₁ := hp₁
  have hip : s₁.ip = ip + 1 := h₁.ip
  rw [hx, hy] at hp₁
  refine ⟨_, execute_branch hf hp₁, ?_⟩
  rw [hip]
  exact h₁.jump _

/-! ## Overflows -/

end Snapshot

/-- Within some steps, a push finds no cell between the stack and the heap. -/
def Overflows (code : Array Op) (n : Nat) (s : State) : Prop :=
  ∃ k ≤ n, ∃ sp hp, (run code k s).1 = .faulted (.stackOverflow sp hp)

theorem Overflows.mono {code : Array Op} {n k : Nat} {s : State} (h : Overflows code n s) (hk : n ≤ k) :
    Overflows code k s := by
  obtain ⟨j, hj, hover⟩ := h
  exact ⟨j, by omega, hover⟩

/-- A run that goes on has not overflowed. -/
theorem not_overflows {code : Array Op} {n : Nat} {s t : State} (h : run code n s = (.unfinished, t)) :
    ¬ Overflows code n s := by
  rintro ⟨k, hk, sp, hp, hover⟩
  obtain ⟨d, rfl⟩ := Nat.exists_eq_add_of_le hk
  rw [run_add] at h
  cases hrun : run code k s with
  | mk o u =>
    rw [hrun] at h hover
    cases hover
    cases h

/-! ## The end of the code -/

section

variable {code : Array Op} {n k : Nat} {s t u : State}

/-- A run from behind the code does not go on. -/
theorem eq_zero_of_run_end (ht : code[t.ip]? = none) (h : run code k t = (.unfinished, u)) : k = 0 := by
  cases k with
  | zero => rfl
  | succ k =>
    rw [run_succ_of_error (step_of_none ht)] at h
    cases h

/-- A state that comes to the end of the code comes there once. -/
theorem run_end_unique (h : run code n s = (.unfinished, t)) (ht : code[t.ip]? = none)
    (h' : run code k s = (.unfinished, u)) (hu : code[u.ip]? = none) : t = u := by
  rcases Nat.le_total n k with hle | hle
  · obtain ⟨d, rfl⟩ := Nat.exists_eq_add_of_le hle
    rw [run_add_of_unfinished h] at h'
    obtain rfl := eq_zero_of_run_end ht h'
    exact congrArg Prod.snd h'
  · obtain ⟨d, rfl⟩ := Nat.exists_eq_add_of_le hle
    rw [run_add_of_unfinished h'] at h
    obtain rfl := eq_zero_of_run_end hu h
    exact (congrArg Prod.snd h).symm

/-- A state that comes to the end of the code never overflows. -/
theorem not_overflows_of_end (h : run code n s = (.unfinished, t)) (ht : code[t.ip]? = none) :
    ¬ ∃ k, Overflows code k s := by
  rintro ⟨k, j, -, sp, hp, hover⟩
  rcases Nat.le_total j n with hle | hle
  · exact not_overflows h ⟨j, hle, sp, hp, hover⟩
  · obtain ⟨d, rfl⟩ := Nat.exists_eq_add_of_le hle
    rw [run_add_of_unfinished h] at hover
    cases d with
    | zero => cases hover
    | succ d =>
      rw [run_succ_of_error (step_of_none ht)] at hover
      cases hover

end

namespace Snapshot

variable {m m' : Snapshot} {s : State} {code : Array Op} {n k : Nat}

/-- Every state that shows a snapshot overflows. -/
def Overflows (code : Array Op) (n : Nat) (m : Snapshot) : Prop := ∀ s, m.Shown s → Machine.Overflows code n s

theorem Overflows.mono (h : m.Overflows code n) (hk : n ≤ k) : m.Overflows code k := fun s hs => (h s hs).mono hk

theorem Goes.overflows (h : Goes code n m m') (h' : m'.Overflows code k) : m.Overflows code (n + k) := by
  intro s hs
  obtain ⟨t, ht, hst⟩ := h s hs
  obtain ⟨j, hj, sp, hp, hover⟩ := h' t hst
  refine ⟨n + j, by omega, sp, hp, ?_⟩
  rw [run_add_of_unfinished ht, hover]

/-- An instruction that pushes where the stack stands at the heap pointer. -/
theorem Overflows.of_push {op : Op} {x : State → Int32} (hop : code[m.ip]? = some op) (hgap : m.sp ≤ m.hp)
    (hx : ∀ s s' f, push (x s) s = .error f s' → op.execute code.size m.ip s = .error f s') :
    m.Overflows code 1 := by
  intro s hs
  have hop' : code[s.ip]? = some op := by rw [hs.ip]; exact hop
  have hover := (hs.jump (m.ip + 1)).push_overflow hgap (x { s with ip := m.ip + 1 })
  have hstep := step_eq hop'
  rw [hs.ip] at hstep
  exact ⟨1, Nat.le_refl 1, s.sp, s.hp, congrArg Prod.fst (run_succ_of_error (hstep.trans (hx _ _ _ hover)))⟩

theorem Overflows.push {v : Int32} (hop : code[m.ip]? = some (.push v)) (hgap : m.sp ≤ m.hp) :
    m.Overflows code 1 :=
  .of_push (x := fun _ => v) hop hgap fun _ _ _ h => Sequencing.bind_run_error h

theorem Overflows.load {r : Register} (hop : code[m.ip]? = some (.plain (.load r))) (hgap : m.sp ≤ m.hp) :
    m.Overflows code 1 :=
  .of_push (x := fun s => s.register r) hop hgap fun s _ _ h =>
    (Sequencing.bind_run (x := get) (s := s) rfl).trans (Sequencing.bind_run_error h)

end Snapshot

end FoolLang.Machine
