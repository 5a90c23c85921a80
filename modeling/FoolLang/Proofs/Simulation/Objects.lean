/-
Objects made wherever the machine may be, close to the heap too. The instructions that make an object write the
cells below the stack, which are free cells above the heap as long as there are some: with fewer than three, a
push overflows, and with just three, the last push falls on the cell that holds the mark of the class already.
-/
import FoolLang.Proofs.Code.Lowered
import FoolLang.Proofs.Machine.Snapshot
import FoolLang.Proofs.Simulation.Fragments

namespace FoolLang

open Machine

variable {code : Array Op} {n k : Nat}

/-! ## Fields -/

namespace Machine.Snapshot

variable {m m' m'' : Snapshot}

/--
Some words have moved from the stack to the heap, by as many groups of six instructions. With one free cell only,
it is not known which words are there.
-/
structure Moved (n : Nat) (m m' : Snapshot) : Prop where
  ip : m'.ip = m.ip + 6 * n
  sp : m'.sp = m.sp + n
  hp : m'.hp = m.hp + n
  words : m.hp + 2 ≤ m.sp → ∀ j < n, m'.cells (m.hp + j) = m.cells (m.sp + j)
  rest : ∀ j, j < m.hp ∨ m.sp + n ≤ j → m'.cells j = m.cells j
  registers : m'.fp = m.fp ∧ m'.ra = m.ra ∧ m'.tm = m.tm ∧ m'.output = m.output

/-- Registers that are kept twice are kept. -/
theorem registers_trans (h : m'.fp = m.fp ∧ m'.ra = m.ra ∧ m'.tm = m.tm ∧ m'.output = m.output)
    (h' : m''.fp = m'.fp ∧ m''.ra = m'.ra ∧ m''.tm = m'.tm ∧ m''.output = m'.output) :
    m''.fp = m.fp ∧ m''.ra = m.ra ∧ m''.tm = m.tm ∧ m''.output = m.output := by
  obtain ⟨hfp, hra, htm, hout⟩ := h
  obtain ⟨hfp', hra', htm', hout'⟩ := h'
  exact ⟨hfp'.trans hfp, hra'.trans hra, htm'.trans htm, hout'.trans hout⟩

theorem Moved.refl (m : Snapshot) : Moved 0 m m :=
  ⟨rfl, rfl, rfl, fun _ _ hj => absurd hj (Nat.not_lt_zero _), fun _ _ => rfl, rfl, rfl, rfl, rfl⟩

theorem Moved.trans (h : Moved n m m') (h' : Moved k m' m'') : Moved (n + k) m m'' := by
  obtain ⟨hip, hsp, hhp, hwords, hrest, hregisters⟩ := h
  obtain ⟨hip', hsp', hhp', hwords', hrest', hregisters'⟩ := h'
  refine ⟨by omega, by omega, by omega, fun hgap j hj => ?_, fun j hj => ?_, registers_trans hregisters hregisters'⟩
  · rcases Nat.lt_or_ge j n with hlt | hge
    · rw [hrest' _ (.inl (by omega)), hwords hgap j hlt]
    · have hword := hwords' (by omega) (j - n) (by omega)
      rw [hhp, hsp, show m.hp + n + (j - n) = m.hp + j by omega, show m.sp + n + (j - n) = m.sp + j by omega] at hword
      rw [hword, hrest _ (.inr (by omega))]
  · rw [hrest' j (by omega), hrest j (by omega)]

/-- The word on top moves to the heap. -/
theorem goes_allocate (h : Stands code m.ip (Code.ops Code.allocate)) (hgap : m.hp < m.sp) (hsp : m.sp < memSize) :
    ∃ m', Goes code 6 m m' ∧ Moved 1 m m' := by
  obtain ⟨hload, hstore, hload', hpush, hadd, hset, -⟩ := h
  -- The cell below the top is named, so that no instruction subtracts.
  obtain ⟨p, hp⟩ : ∃ p, m.sp = p + 1 := ⟨m.sp - 1, by omega⟩
  have hle : m.hp ≤ p := by omega
  have hlt : p + 1 < memSize := by omega
  have hstart : m.put m.ip (p + 1) m.cells = m := by rw [← hp]; rfl
  have h₁ : Goes code 1 (m.put m.ip (p + 1) m.cells) _ := .load hload hle
  have h₂ := h₁.trans (.storeWord (i := m.hp) hstore (by simp [register]) (by simp; rfl) (by omega) hlt)
  have h₃ := h₂.trans (.load (p := p + 1) hload' (by omega))
  have h₄ := h₃.trans (.push hpush hle)
  have h₅ := h₄.trans (.arith hadd (by decide) (by simp [register]; rfl) (by simp; rfl) hlt hle)
  have h₆ := h₅.trans (.storeHp (i := m.hp + 1) hset (by simp [Arith.apply]) (by omega) hlt)
  rw [hstart] at h₆
  refine ⟨_, h₆, rfl, (congrArg (· + 1) hp).symm, rfl, fun hroom j hj => ?_, fun j hj => ?_, rfl, rfl, rfl, rfl⟩
  · obtain rfl : j = 0 := by omega
    rw [Nat.add_zero, Nat.add_zero, hp]
    simp [put, show m.hp ≠ p by omega, show m.hp ≠ p + 1 by omega]
  · have hne : j ≠ p ∧ j ≠ p + 1 ∧ j ≠ m.hp := by omega
    simp [put, hne]

/-- Some words move to the heap, the one on top first. -/
theorem goes_allocateAll (n : Nat) : ∀ {m : Snapshot},
    Stands code m.ip (Code.ops (List.replicate n Code.allocate).flatten) → m.hp < m.sp → m.sp + n ≤ memSize →
      ∃ m', Goes code (6 * n) m m' ∧ Moved n m m' := by
  induction n with
  | zero => exact fun _ _ _ => ⟨_, .refl _, .refl _⟩
  | succ n ih =>
    intro m h hgap hsp
    rw [List.replicate_succ, List.flatten_cons, Code.ops_append, stands_append] at h
    obtain ⟨m₁, hgoes, hmoved⟩ := goes_allocate h.1 hgap (by omega)
    have hnext := h.2
    rw [show m.ip + (Code.ops Code.allocate).length = m₁.ip from hmoved.ip.symm] at hnext
    have hsp₁ := hmoved.sp
    have hhp₁ := hmoved.hp
    obtain ⟨m₂, hgoes', hmoved'⟩ := ih hnext (by omega) (by omega)
    refine ⟨m₂, ?_, ?_⟩
    · rw [show 6 * (n + 1) = 6 + 6 * n by omega]
      exact hgoes.trans hgoes'
    · rw [Nat.add_comm n 1]
      exact hmoved.trans hmoved'

/-! ## The mark of the class -/

variable {offset : Int32} {i : Nat}

/-- The dispatch table is found where one cell is free. -/
theorem goes_table {ip p : Nat} (cells : Nat → Int32) (h : Stands code ip (Code.mark offset))
    (hslot : Code.outermostSlot offset = .ofNat i) (hi : p < i) (hmem : i < memSize) (hgap : m.hp ≤ p) :
    Goes code 2 (m.put ip (p + 1) cells)
      (m.put (ip + 2) p (Function.update (Function.update cells p (Code.outermostSlot offset)) p (cells i))) := by
  obtain ⟨hpush, hload, -⟩ := h
  have h₁ : Goes code 1 (m.put ip (p + 1) cells) _ := .push hpush hgap
  refine h₁.trans (.loadWord hload ?_ ?_ hmem (by omega) hgap)
  · rw [Function.update_self, hslot]
  · rw [Function.update_of_ne (by omega)]

/-- Where two cells are free, the table is written to the heap, and the reference is pushed twice. -/
theorem goes_reference {ip q : Nat} (cells : Nat → Int32) (h : Stands code ip (Code.mark offset))
    (hslot : Code.outermostSlot offset = .ofNat i) (hi : q + 1 < i) (hmem : i < memSize) (hgap : m.hp ≤ q) :
    ∃ cells', Goes code 6 (m.put ip (q + 2) cells) (m.put (ip + 6) q cells') ∧ cells' q = .ofNat m.hp ∧
      cells' (q + 1) = .ofNat m.hp ∧ (m.hp < q → cells' m.hp = cells i) ∧
      ∀ j, j ≠ m.hp → j ≠ q → j ≠ q + 1 → cells' j = cells j := by
  have h₁ : Goes code 2 (m.put ip (q + 2) cells) _ := goes_table _ h hslot hi hmem (by omega)
  obtain ⟨-, -, hload, hstore, hload', hload'', -⟩ := h
  have h₂ := h₁.trans (.load hload hgap)
  have h₃ := h₂.trans (.storeWord (i := m.hp) hstore (by simp [register]) (by simp; rfl) (by omega) (by omega))
  have h₄ := h₃.trans (.load (p := q + 1) hload' (by omega))
  have h₅ := h₄.trans (.load hload'' hgap)
  refine ⟨_, h₅, by simp [register], by simp [register], fun hlt => ?_, fun j hj hj' hj'' => ?_⟩
  · simp [show m.hp ≠ q by omega, show m.hp ≠ q + 1 by omega]
  · simp [hj, hj', hj'']

/-- What the mark of a class and the reference to its object change. -/
structure Marked (table : Int32) (m m' : Snapshot) : Prop where
  ip : m'.ip = m.ip + 9
  sp : m'.sp + 1 = m.sp
  hp : m'.hp = m.hp + 1
  top : m'.cells m'.sp = .ofNat m.hp
  mark : m'.cells m.hp = if m.sp = m.hp + 3 then 1 else table
  rest : ∀ j, j < m.hp ∨ m.sp ≤ j → m'.cells j = m.cells j
  registers : m'.fp = m.fp ∧ m'.ra = m.ra ∧ m'.tm = m.tm ∧ m'.output = m.output

/-- Where three cells are free, the object gets its mark, but for the push that may fall on it. -/
theorem goes_mark (h : Stands code m.ip (Code.mark offset)) (hslot : Code.outermostSlot offset = .ofNat i)
    (hi : m.sp ≤ i) (hmem : i < memSize) (hgap : m.hp + 3 ≤ m.sp) :
    ∃ m', Goes code 9 m m' ∧ Marked (m.cells i) m m' := by
  obtain ⟨r, hr⟩ : ∃ r, m.sp = r + 3 := ⟨m.sp - 3, by omega⟩
  have hstart : m.put m.ip (r + 1 + 2) m.cells = m := by rw [show r + 1 + 2 = m.sp by omega]; rfl
  have hle : m.hp ≤ r := by omega
  obtain ⟨cells, h₁, htop, hsecond, hmark, hrest⟩ :=
    goes_reference (m := m) m.cells h hslot (show r + 1 + 1 < i by omega) hmem (by omega)
  obtain ⟨-, -, -, -, -, -, hpush, hadd, hset, -⟩ := h
  have h₂ := h₁.trans (.push hpush hle)
  have h₃ := h₂.trans (.arith hadd (by decide) (by simp [htop]; rfl) (by simp; rfl) (by omega) hle)
  have h₄ := h₃.trans (.storeHp (i := m.hp + 1) hset (by simp [Arith.apply]) (by omega) (by omega))
  rw [hstart] at h₄
  refine ⟨_, h₄, rfl, hr.symm, rfl, ?_, ?_, fun j hj => ?_, rfl, rfl, rfl, rfl⟩
  · show Function.update (Function.update cells r 1) (r + 1) _ (r + 1 + 1) = _
    rw [Function.update_of_ne (by omega), Function.update_of_ne (by omega), hsecond]
  · by_cases hr' : m.hp = r
    · -- The last push has fallen on the mark.
      simp [put, hr', hr]
    · have hmark := hmark (by omega)
      simp [put, hr', hmark, show m.hp ≠ r + 1 by omega, show m.sp ≠ m.hp + 3 by omega]
  · have hne : j ≠ r ∧ j ≠ r + 1 ∧ j ≠ r + 2 ∧ j ≠ m.hp := by omega
    simp [put, hne, hrest j hne.2.2.2 hne.2.1 hne.2.2.1]

/-- With fewer than three free cells, a push overflows. -/
theorem mark_overflows (h : Stands code m.ip (Code.mark offset)) (hslot : Code.outermostSlot offset = .ofNat i)
    (hi : m.sp ≤ i) (hmem : i < memSize) (hle : m.hp ≤ m.sp) (hgap : m.sp < m.hp + 3) : m.Overflows code 9 := by
  -- Each push takes a free cell: which one overflows depends on how many there are.
  obtain hzero | hone | htwo : m.sp = m.hp ∨ m.sp = m.hp + 1 ∨ m.sp = m.hp + 2 := by omega
  · have h₁ : m.Overflows code 1 := .push h.1 (by omega)
    exact h₁.mono (by decide)
  · have hstart : m.put m.ip (m.hp + 1) m.cells = m := by rw [← hone]; rfl
    have h₁ : Goes code 2 (m.put m.ip (m.hp + 1) m.cells) _ := goes_table _ h hslot (by omega) hmem (Nat.le_refl m.hp)
    obtain ⟨-, -, hload, -⟩ := h
    have h₂ := h₁.overflows (.load hload (Nat.le_refl m.hp))
    rw [hstart] at h₂
    exact h₂.mono (by decide)
  · have hstart : m.put m.ip (m.hp + 2) m.cells = m := by rw [← htwo]; rfl
    obtain ⟨cells, h₁, -⟩ :=
      goes_reference (m := m) m.cells h hslot (by omega) hmem (Nat.le_refl m.hp)
    obtain ⟨-, -, -, -, -, -, hpush, -⟩ := h
    have h₂ := h₁.overflows (.push hpush (Nat.le_refl m.hp))
    rw [hstart] at h₂
    exact h₂.mono (by decide)

/-! ## Objects -/

/-- What an object made of some words on the stack and of a table changes. -/
structure Built (n : Nat) (table : Int32) (m m' : Snapshot) : Prop where
  ip : m'.ip = m.ip + (6 * n + 9)
  sp : m'.sp + 1 = m.sp + n
  hp : m'.hp = m.hp + n + 1
  top : m'.cells m'.sp = .ofNat (m.hp + n)
  mark : m'.cells (m.hp + n) = if m.sp = m.hp + 3 then 1 else table
  fields : ∀ j < n, m'.cells (m.hp + j) = m.cells (m.sp + j)
  rest : ∀ j, j < m.hp ∨ m.sp + n ≤ j → m'.cells j = m.cells j
  registers : m'.fp = m.fp ∧ m'.ra = m.ra ∧ m'.tm = m.tm ∧ m'.output = m.output

/-- The fields of an object, then its mark. -/
theorem Moved.built {table : Int32} (h : Moved n m m') (h' : Marked table m' m'') (hgap : m.hp + 3 ≤ m.sp) :
    Built n table m m'' := by
  obtain ⟨hip, hsp, hhp, hwords, hrest, hregisters⟩ := h
  obtain ⟨hip', hsp', hhp', htop, hmark, hrest', hregisters'⟩ := h'
  refine ⟨by omega, by omega, by omega, ?_, ?_, fun j hj => ?_, fun j hj => ?_, registers_trans hregisters hregisters'⟩
  · rw [htop, hhp]
  · rw [← hhp, hmark]
    exact if_congr (by omega) rfl rfl
  · rw [hrest' _ (.inl (by omega)), hwords (by omega) j hj]
  · rw [hrest' _ (by omega), hrest _ (by omega)]

/-- An object is made, or a push overflows. -/
theorem goes_object (h : Stands code m.ip (Code.ops (Code.object n offset)))
    (hslot : Code.outermostSlot offset = .ofNat i) (hi : m.sp + n ≤ i) (hmem : i < memSize) (hle : m.hp ≤ m.sp) :
    (m.sp < m.hp + 3 ∧ m.Overflows code (6 * n + 9)) ∨
      (m.hp + 3 ≤ m.sp ∧ ∃ m', Goes code (6 * n + 9) m m' ∧ Built n (m.cells i) m m') := by
  rw [Code.object_ops, stands_append, Code.allocateAll_ops_length] at h
  obtain ⟨hfields, hmark⟩ := h
  by_cases hfull : m.sp = m.hp
  · -- Nothing can be pushed at all, be it for a field or for the mark.
    have hover : m.Overflows code 1 := by
      cases n with
      | zero => exact .push hmark.1 (by omega)
      | succ n => exact .load hfields.1 (by omega)
    exact .inl ⟨by omega, hover.mono (by omega)⟩
  · obtain ⟨m₁, hgoes, hmoved⟩ := goes_allocateAll n hfields (by omega) (by omega)
    have hsp := hmoved.sp
    have hhp := hmoved.hp
    rw [← hmoved.ip] at hmark
    by_cases hgap : m.sp < m.hp + 3
    · exact .inl ⟨hgap, hgoes.overflows (mark_overflows hmark hslot (by omega) hmem (by omega) (by omega))⟩
    · obtain ⟨m₂, hgoes', hmarked⟩ := goes_mark hmark hslot (by omega) hmem (by omega)
      rw [hmoved.rest i (.inr hi)] at hmarked
      exact .inr ⟨by omega, m₂, hgoes.trans hgoes', hmoved.built hmarked (by omega)⟩

end Machine.Snapshot

/-! ## Instantiations -/

/-- The values of the fields of an object have been evaluated, and a slot above them holds a dispatch table. -/
structure Machine.Evaluated (vs : List Int32) (slot table : Int32) (s : State) : Prop where
  admitted : s.Admitted
  values : ∀ i v, vs.reverse[i]? = some v → s.word? (s.sp + .ofNat i) = some v
  above : s.sp.toInt + vs.length ≤ slot.toInt
  slot : s.word? slot = some table

/-- Values on the stack have been replaced by the reference to a new object, which has them as its fields. -/
structure Machine.Instantiated (vs : List Int32) (table : Int32) (s t : State) : Prop where
  sp : t.sp = s.sp + .ofNat vs.length - 1
  hp : t.hp = s.hp + .ofNat vs.length + 1
  top : t.word? t.sp = some (s.hp + .ofNat vs.length)
  mark : t.word? (s.hp + .ofNat vs.length) = some table
  fields : ∀ i v, vs[i]? = some v → t.word? (s.hp + .ofNat vs.length - .ofNat (i + 1)) = some v
  above : ∀ a, s.sp.toInt + vs.length ≤ a.toInt → t.word? a = s.word? a
  below : ∀ a, a < s.hp → t.word? a = s.word? a
  registers : t.fp = s.fp ∧ t.ra = s.ra ∧ t.tm = s.tm ∧ t.output = s.output

section

variable {vs : List Int32} {table : Int32} {s t : State} {m m' : Snapshot}

/-- What an object changes, told by words. -/
theorem Machine.Snapshot.Built.instantiated (h : Snapshot.Built vs.length table m m') (hs : m.Shown s) (ht : m'.Shown t)
    (hgap : m.hp + 3 ≤ m.sp) (hsp : m.sp + vs.length < memSize)
    (hvalues : ∀ i v, vs.reverse[i]? = some v → m.cells (m.sp + i) = v) :
    Instantiated vs (if m.sp = m.hp + 3 then 1 else table) s t := by
  have hm : memSize = 10000 := rfl
  have hreference : s.hp + .ofNat vs.length = .ofNat (m.hp + vs.length) := by rw [hs.hp, ← Int32.ofNat_add]
  have hspt := h.sp
  refine ⟨?_, ?_, ?_, ?_, fun i v hv => ?_, fun a ha => ?_, fun a ha => ?_, ?_⟩
  · rw [ht.sp, hs.sp, ← Int32.ofNat_add, ← hspt, Int32.ofNat_add]
    simp
  · rw [ht.hp, h.hp, hreference, heap_next]
  · rw [ht.sp, ht.word (by omega), h.top, hreference]
  · rw [hreference, ht.word (by omega), h.mark]
  · have hi := (List.getElem?_eq_some_iff.mp hv).1
    have hfield := hvalues (vs.length - 1 - i) v (by rw [List.getElem?_reverse (by omega), ← hv]; congr 1; omega)
    have hword := h.fields (vs.length - 1 - i) (by omega)
    have haddress : s.hp + .ofNat vs.length - .ofNat (i + 1) = .ofNat (m.hp + (vs.length - 1 - i)) := by
      rw [hreference, show m.hp + vs.length = m.hp + (vs.length - 1 - i) + (i + 1) by omega,
        Int32.ofNat_add (m.hp + (vs.length - 1 - i)) (i + 1)]
      simp
    rw [haddress, ht.word (by omega), hword, hfield]
  · refine hs.word_eq ht fun hpos => h.rest _ (.inr ?_)
    rw [hs.sp, toInt_ofNat (by omega)] at ha
    omega
  · refine hs.word_eq ht fun hpos => h.rest _ (.inl ?_)
    rw [hs.hp, Int32.lt_iff_toInt_lt, toInt_ofNat (by omega)] at ha
    omega
  · rw [ht.fp, ht.ra, ht.tm, ht.output, hs.fp, hs.ra, hs.tm, hs.output]
    exact h.registers

/--
From behind the values of its fields, an object is made of them in every state that the machine admits, or a push
overflows: which of these depends on how many cells are free. With three, the object is made but for its mark, which
is lost.
-/
theorem Code.object_instantiates {offset : Int32} (hstands : Stands code s.ip (Code.ops (Code.object vs.length offset)))
    (heval : Evaluated vs (Code.outermostSlot offset) table s) :
    (s.sp.toInt < s.hp.toInt + 3 ∧ Overflows code (Code.object vs.length offset).length s) ∨
      (s.hp.toInt + 3 ≤ s.sp.toInt ∧ ∃ t,
        Machine.run code (Code.object vs.length offset).length s = (.unfinished, t) ∧
        t.ip = s.ip + (Code.object vs.length offset).length ∧
        Instantiated vs (if s.sp.toInt = s.hp.toInt + 3 then 1 else table) s t) := by
  obtain ⟨hadmitted, hvalues, habove, hslot⟩ := heval
  obtain ⟨hhp, hgap, hsp⟩ := hadmitted.bounds
  obtain ⟨hpos, hmem⟩ := cell_of_word hslot
  have hshown := hadmitted.shown
  have hsp' : s.snapshot.sp = s.sp.toInt.toNat := rfl
  have hhp' : s.snapshot.hp = s.hp.toInt.toNat := rfl
  have hcell : ∀ {i w}, i < memSize → s.word? (.ofNat i) = some w → s.snapshot.cells i = w := fun hi hw =>
    Option.some.inj ((hshown.word hi).symm.trans hw)
  rw [Code.object_length]
  rcases Snapshot.goes_object (m := s.snapshot) hstands (ofNat_toNat hpos).symm (by omega) hmem (by omega) with
    ⟨hfull, hover⟩ | ⟨hfree, m', hgoes, hbuilt⟩
  · exact .inl ⟨by omega, hover s hshown⟩
  · obtain ⟨t, hrun, ht⟩ := hgoes s hshown
    refine .inr ⟨by omega, t, hrun, ht.ip.trans hbuilt.ip, ?_⟩
    rw [hcell hmem (by rwa [ofNat_toNat hpos])] at hbuilt
    have hmade := hbuilt.instantiated hshown ht hfree (by omega) fun i v hv => by
      have hi := (List.getElem?_eq_some_iff.mp hv).1
      rw [List.length_reverse] at hi
      refine hcell (by omega) ?_
      rw [Int32.ofNat_add, ← hshown.sp, hvalues i v hv]
    rwa [if_congr (show s.snapshot.sp = s.snapshot.hp + 3 ↔ s.sp.toInt = s.hp.toInt + 3 by omega) rfl rfl] at hmade

/--
The rest of the code of an instantiation, behind the values of its arguments, makes an object of them in every state
that the machine admits, or a push overflows. The latter happens just where fewer than three cells are free; with
three, the mark of the object is lost.
-/
theorem Expr.new_instantiates {c : String} {args : List Expr} {r : Resolution} {l : Nat} {b b' : CodeBuffer}
    {is : List Instruction} (h : (Expr.new c args (some r) l).lower b = .ok is b') :
    ∃ fields rest, is = fields ++ rest ∧ Expr.lowerAll args b = .ok fields b' ∧
      ∀ code s vs table, vs.length = args.length → Stands code s.ip (Code.ops rest) →
        Evaluated vs (Code.outermostSlot r.entry.offset) table s →
          (s.sp.toInt < s.hp.toInt + 3 ∧ Overflows code rest.length s) ∨
          (s.hp.toInt + 3 ≤ s.sp.toInt ∧ ∃ t, Machine.run code rest.length s = (.unfinished, t) ∧
            t.ip = s.ip + rest.length ∧
            Instantiated vs (if s.sp.toInt = s.hp.toInt + 3 then 1 else table) s t) := by
  rw [Expr.lower] at h
  obtain ⟨r', b₁, hr, hrest⟩ := Lowering.bind_ok h
  obtain ⟨hr', rfl⟩ := Lowering.decoration_ok hr
  cases hr'
  obtain ⟨fields, b₂, hargs, h⟩ := Lowering.bind_ok hrest
  cases h
  refine ⟨fields, _, rfl, hargs, fun code s vs table hlen hstands heval => ?_⟩
  rw [← hlen] at hstands ⊢
  exact Code.object_instantiates hstands heval

end

/-! ## An object -/

/-- An object with one field, of the class whose table is in the first slot of the outermost frame. -/
def fieldObject : Expr := .new "C" [.int 7 1] (some ⟨⟨0, .cls [.int] [], -2, false⟩, 0⟩) 1

/-- The code of the object behind that of its field. -/
def fieldObjectCode : Array Op := (Code.ops (Code.object 1 (-2))).toArray

/-- The field is on top of the stack, the table above it, and the heap ends somewhere below. -/
def fieldState (hp : Int32) : State :=
  { State.initial with hp, sp := 9997, memory := ((State.initial.memory.set 9998 42).set 9997 7) }

theorem fieldObject_lower : fieldObject.lower .empty = .ok ([.push 7] ++ Code.object 1 (-2)) .empty := rfl

theorem fieldObjectCode_stands : Stands fieldObjectCode 0 (Code.ops (Code.object 1 (-2))) :=
  ⟨rfl, rfl, rfl, rfl, rfl, rfl, rfl, rfl, rfl, rfl, rfl, rfl, rfl, rfl, rfl, trivial⟩

theorem fieldState_evaluated (hp : Int32) (hpos : 0 ≤ hp) (hle : hp ≤ 9997) :
    Evaluated [7] (Code.outermostSlot (-2)) 42 (fieldState hp) := by
  have hlen : (State.initial.memory.toList).length = 10000 := Vector.length_toList
  have hbase : (9997 : Int32) ≤ stackBase := by decide
  have habove : (9997 : Int32).toInt + 1 ≤ (Code.outermostSlot (-2)).toInt := by decide
  refine ⟨⟨hpos, hle, hbase⟩, ?_, habove, ?_⟩
  · rintro i v hv
    obtain ⟨rfl, rfl⟩ : i = 0 ∧ v = 7 := by
      match i, hv with
      | 0, hv => exact ⟨rfl, (Option.some.inj hv).symm⟩
    show (fieldState hp).word? (.ofNat 9997) = some 7
    rw [word?_ofNat _ (by decide), fieldState, Vector.toList_set, List.getElem?_set_self]
    rw [Vector.toList_set, List.length_set, hlen]
    decide
  · show (fieldState hp).word? (.ofNat 9998) = some 42
    rw [word?_ofNat _ (by decide), fieldState, Vector.toList_set, Vector.toList_set, List.getElem?_set_ne (by decide),
      List.getElem?_set_self]
    rw [hlen]
    decide

/-- Far above the heap, the object is made. -/
theorem Expr.new_instantiates_field : ∃ t, Machine.run fieldObjectCode 15 (fieldState 0) = (.unfinished, t) ∧
    Instantiated [7] 42 (fieldState 0) t := by
  obtain ⟨fields, rest, his, hfields, hnew⟩ := Expr.new_instantiates fieldObject_lower
  have hseven : Expr.lowerAll [.int 7 1] .empty = .ok [.push 7] .empty := rfl
  cases hseven.symm.trans hfields
  cases List.append_cancel_left his
  have heval := fieldState_evaluated 0 (by decide) (by decide)
  rcases hnew fieldObjectCode (fieldState 0) [7] 42 rfl fieldObjectCode_stands heval with
    ⟨hfull, -⟩ | ⟨-, t, hrun, -, hmade⟩
  · exact absurd hfull (by decide)
  · rw [if_neg (by decide)] at hmade
    exact ⟨t, hrun, hmade⟩

/-- Three cells above the heap, the object is neither made as it should be nor refused. -/
theorem fieldObject_spoiled : fieldObject.lower .empty = .ok ([.push 7] ++ Code.object 1 (-2)) .empty ∧
    Stands fieldObjectCode (fieldState 9994).ip (Code.ops (Code.object 1 (-2))) ∧
    Evaluated [7] (Code.outermostSlot (-2)) 42 (fieldState 9994) ∧
    ¬ (Overflows fieldObjectCode 15 (fieldState 9994) ∨
      ∃ t, Machine.run fieldObjectCode 15 (fieldState 9994) = (.unfinished, t) ∧
        Instantiated [7] 42 (fieldState 9994) t) := by
  have heval := fieldState_evaluated 9994 (by decide) (by decide)
  refine ⟨fieldObject_lower, fieldObjectCode_stands, heval, ?_⟩
  rcases Code.object_instantiates fieldObjectCode_stands heval with ⟨hfull, -⟩ | ⟨-, t, hrun, -, hmade⟩
  · exact absurd hfull (by decide)
  · rintro (hover | ⟨t', hrun', hmade'⟩)
    · exact not_overflows hrun hover
    · cases hrun.symm.trans hrun'
      have hmark := hmade.mark.symm.trans hmade'.mark
      rw [if_pos (by decide)] at hmark
      exact absurd hmark (by decide)

end FoolLang
