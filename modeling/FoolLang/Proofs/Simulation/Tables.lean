/-
Dispatch tables as the machine builds them. The code of the class declarations is straight, so the run is behind that
of a class after as many steps as there are instructions in front of it, unless the stack has met the heap before. Main
statement: there, the cell of the class holds where its table begins at the end of the heap, and in the table each
method has the address of its own routine in its own slot.
-/
import FoolLang.Proofs.Code.Entries
import FoolLang.Proofs.Simulation.Preservation
import FoolLang.Proofs.Static.Receivers

namespace FoolLang

open Machine

/-! ## Straight code -/

namespace Machine

section

variable {code : Array Op} {c c' : Config} {P : Config → Prop} {a : Nat}

/-- The instruction at an address is no jump, call or return. -/
def GoesOn (code : Array Op) (a : Nat) : Prop :=
  code[a]? ≠ some (.plain .jumpSubroutine) ∧ ∀ j t, code[a]? ≠ some (.jump j t)

theorem Config.Step.ip_succ (h : c.Step code c') (ha : GoesOn code c.ip) : c'.ip = c.ip + 1 := by
  cases h with
  | call hop => exact absurd hop ha.1
  | jump hop | branch hop => exact absurd hop (ha.2 _ _)
  | _ => rfl

theorem Path.ip_le (h : Path code P c c') (hP : ∀ d, P d → GoesOn code d.ip) : c.ip ≤ c'.ip := by
  induction h with
  | refl => exact Nat.le_refl _
  | step hd hs _ ih =>
    rw [hs.ip_succ (hP _ hd)] at ih
    exact Nat.le_of_succ_le ih

/-- Along a path through straight code, each instruction is executed at the time that is its address. -/
theorem Path.straight (h : Path code P c c') (hP : ∀ d, P d → GoesOn code d.ip) (hat : At code c.ip c)
    (hfree : ∀ j < c'.ip, ¬ Crowded code j) :
    At code c'.ip c' ∧ ∀ j, c.ip ≤ j → j ≤ c'.ip → ∃ s, Visits code j s ∧ s.ip = j := by
  -- The time is the address at the beginning, and each step adds one to both.
  induction h with
  | refl c =>
    refine ⟨hat, fun j hlow hhigh => ?_⟩
    obtain rfl := Nat.le_antisymm hhigh hlow
    obtain ⟨s, hv, hs, -⟩ := hat
    exact ⟨s, hv, hs.ip⟩
  | @step c c₁ c₂ hd hs hrest ih =>
    have hip := hs.ip_succ (hP _ hd)
    have hle := hrest.ip_le hP
    have hnext := (hat.succ_of_call (fun hop => absurd hop (hP _ hd).1) hs).resolve_left (hfree _ (by omega))
    rw [← hip] at hnext
    obtain ⟨hend, hway⟩ := ih hnext hfree
    refine ⟨hend, fun j hlow hhigh => ?_⟩
    rcases Nat.eq_or_lt_of_le hlow with rfl | hlt
    · obtain ⟨s, hv, hs, -⟩ := hat
      exact ⟨s, hv, hs.ip⟩
    · exact hway j (by omega) hhigh

/-- A proper instruction that is no jump, call or return. -/
def Instruction.goesOn : Instruction → Bool
  | .plain p => p != .jumpSubroutine
  | .push _ | .pushLabel _ => true
  | .label _ | .jump _ _ => false

theorem Placed.goesOn {table : List (String × Nat)} : ∀ {is : List Instruction} {a : Nat}, Placed table code a is →
    is.all Instruction.goesOn = true → ∀ x, a ≤ x → x < a + width is → GoesOn code x := by
  intro is
  induction is with
  | nil =>
    intro a _ _ x hlow hhigh
    simp only [width] at hhigh
    omega
  | cons i is ih =>
    intro a h hall x hlow hhigh
    rw [List.all_cons, Bool.and_eq_true] at hall
    obtain ⟨hi, hall⟩ := hall
    -- What stands at the address itself is the first instruction, the others follow behind it.
    have hsplit : ∀ {op : Op}, code[a]? = some op → Placed table code (a + 1) is → x < a + (width is + 1) →
        op ≠ .plain .jumpSubroutine → (∀ j t, op ≠ .jump j t) → GoesOn code x := by
      intro op hop hrest hhigh hcall hjump
      rcases Nat.eq_or_lt_of_le hlow with rfl | hlt
      · constructor
        · rw [hop]
          exact fun heq => hcall (Option.some.inj heq)
        · intro j t
          rw [hop]
          exact fun heq => hjump j t (Option.some.inj heq)
      · exact ih hrest hall x hlt (by omega)
    cases i with
    | plain p =>
      refine hsplit h.1 h.2 hhigh ?_ (by simp)
      rintro ⟨⟩
      cases hi
    | push n => exact hsplit h.1 h.2 hhigh (by simp) (by simp)
    | pushLabel l =>
      obtain ⟨⟨t, -, hop⟩, hrest⟩ := h
      exact hsplit hop hrest hhigh (by simp) (by simp)
    | label l => cases hi
    | jump j l => cases hi

end

end Machine

/-- The code that builds a table is straight. -/
theorem Code.goesOn_dispatchTable (ls : List String) : (dispatchTable ls).all Instruction.goesOn = true := by
  rw [dispatchTable, List.all_cons, List.all_flatMap]
  simp [load, store, allocate, addConst, Instruction.goesOn]

/-! ## Building tables -/

section

variable {table : List (String × Nat)} {code : Array Op} {c : Config} {a : Nat} {ls : List String}

theorem Machine.Placed.puts : ∀ {ls : List String} {a : Nat},
    Placed table code a (ls.flatMap fun l => .pushLabel l :: Code.allocate) →
      ∃ ts, List.Forall₂ (fun l t => table.lookup l = some t) ls ts ∧ Stands code a (Code.puts ts)
  | [], _, _ => ⟨[], .nil, trivial⟩
  | l :: ls, a, h => by
    rw [List.flatMap_cons, placed_append] at h
    obtain ⟨⟨⟨t, ht, hpush⟩, hallocate⟩, hrest⟩ := h
    obtain ⟨ts, hts, hwords⟩ := Machine.Placed.puts hrest
    refine ⟨t :: ts, .cons ht hts, hpush, (stands_append _ _ _).mpr ⟨?_, hwords⟩⟩
    exact Placed.stands Code.allocate _ rfl rfl hallocate

/-- The table of a class comes to stand behind what is on the heap, with the addresses of its labels. -/
theorem puts_dispatchTable (hip : c.ip = a) (h : Placed table code a (Code.dispatchTable ls)) :
    ∃ c' ts, Puts code a (a + width (Code.dispatchTable ls)) c c' [.ofNat c.heap.length] (ts.map .ofNat) ∧
      List.Forall₂ (fun l t => table.lookup l = some t) ls ts := by
  obtain ⟨hload, hrest⟩ := h
  obtain ⟨ts, hts, hwords⟩ := hrest.puts
  obtain ⟨c', hputs⟩ := puts_table hip hload hwords
  have hend : a + 1 + 7 * ts.length = a + width (Code.dispatchTable ls) := by
    rw [Code.dispatchTable_width, hts.length_eq, Nat.add_assoc]
  rw [hend] at hputs
  exact ⟨c', ts, hputs, hts⟩

/-- One word on the stack for each of some tables. -/
theorem puts_dispatchTables : ∀ (lss : List (List String)) {c : Config} {a : Nat}, c.ip = a →
    Placed table code a (lss.flatMap Code.dispatchTable) → ∃ c' words cells,
      Puts code a (a + width (lss.flatMap Code.dispatchTable)) c c' words cells ∧ words.length = lss.length
  | [], c, a, hip, _ => ⟨c, [], [], .nothing hip, rfl⟩
  | ls :: lss, c, a, hip, h => by
    rw [List.flatMap_cons, placed_append] at h
    obtain ⟨c₁, ts, hfirst, -⟩ := puts_dispatchTable hip h.1
    obtain ⟨c₂, words, cells, hrest, hlen⟩ := puts_dispatchTables lss hfirst.ip h.2
    have hall := hfirst.trans hrest
    rw [Nat.add_assoc, ← width_append] at hall
    exact ⟨c₂, _, _, hall, by rw [List.length_append, hlen]; rfl⟩

theorem Code.goesOn_tables (lss : List (List String)) (ls : List String) :
    (tables lss ls).all Instruction.goesOn = true := by
  simp [tables, List.all_append, List.all_flatMap, goesOn_dispatchTable, Instruction.goesOn]

/-- The last table stands at the end of the heap, and its address on top of the stack. -/
theorem puts_tables {lss : List (List String)} (h : Placed table code 0 (Code.tables lss ls)) :
    ∃ c words cells ts, Puts code 0 (width (Code.tables lss ls)) .initial c (.ofNat cells.length :: (words ++ [0]))
        (cells ++ ts.map .ofNat) ∧ words.length = lss.length ∧
      List.Forall₂ (fun l t => table.lookup l = some t) ls ts := by
  rw [Code.tables, placed_append, placed_append, width_append] at h
  rw [Code.tables, width_append, width_append]
  obtain ⟨⟨⟨hpush, -⟩, hfront⟩, htable⟩ := h
  simp only [width, Nat.zero_add] at hfront htable ⊢
  have hfirst : Puts code 0 1 .initial { Config.initial with ip := 1, stack := [0] } [0] [] :=
    ⟨(enters_push (c := .initial) rfl ⟨hpush, trivial⟩).path, Nat.zero_le 1, rfl, rfl, rfl, rfl, rfl, rfl⟩
  obtain ⟨c₁, words, cells, htables, hlen⟩ := puts_dispatchTables lss hfirst.ip hfront
  have hbefore := hfirst.trans htables
  obtain ⟨c₂, ts, hlast, hts⟩ := puts_dispatchTable hbefore.ip htable
  have hheap : c₁.heap = cells := hbefore.heap
  rw [hheap] at hlast
  exact ⟨c₂, words, cells, ts, hbefore.trans hlast, hlen, hts⟩

/-- The run executes the code of the tables one instruction after the other, unless the stack meets the heap. -/
theorem at_tables {lss : List (List String)} (h : Placed table code 0 (Code.tables lss ls))
    (hfree : ∀ j < width (Code.tables lss ls), ¬ Crowded code j) :
    (∀ j ≤ width (Code.tables lss ls), ∃ s, Visits code j s ∧ s.ip = j) ∧
      ∃ c words cells ts, At code (width (Code.tables lss ls)) c ∧
        c.stack = .ofNat cells.length :: (words ++ [0]) ∧ words.length = lss.length ∧
        c.heap = cells ++ List.map .ofNat ts ∧ List.Forall₂ (fun l t => table.lookup l = some t) ls ts := by
  obtain ⟨c, words, cells, ts, hputs, hlen, hts⟩ := puts_tables h
  have hgoes : ∀ d, Between 0 (width (Code.tables lss ls)) Config.initial.level d → GoesOn code d.ip := by
    rintro d ⟨-, hlt, -⟩
    exact h.goesOn (Code.goesOn_tables lss ls) d.ip (Nat.zero_le _) (by rwa [Nat.zero_add])
  obtain ⟨hat, hway⟩ := hputs.path.straight hgoes at_initial (by rwa [hputs.ip])
  rw [hputs.ip] at hat hway
  exact ⟨fun j hj => hway j (Nat.zero_le j) hj, c, words, cells, ts, hat, hputs.stack.trans (List.append_nil _), hlen,
    hputs.heap, hts⟩

end

/-! ## Tables -/

/--
A class has its dispatch table at the end of the heap: the cell at an offset of the outermost frame holds where it
begins, and the slot of each method the address of the routine generated from the method, which is noted for it.
-/
structure ClassDecl.Tabled (cls : ClassDecl) (is : List Instruction) (labels : Table (String × String) String)
    (offset : Int32) (s : State) (base : Int32) : Prop where
  cell : s.word? (stackBase + offset) = some base
  last : base + .ofNat cls.methods.length = s.hp
  entry : ∀ m ∈ cls.methods, ∃ slot label t, m.slot = some slot ∧
    labels.get? (cls.name, m.header.name) = some label ∧ m.StandsAt is label t ∧
    s.word? (base + slot) = some (.ofNat t)

/-- A state has the table of a class where its stack ends with the address of the table and its heap with the table. -/
theorem Machine.Config.Shown.tabled {cls : ClassDecl} {is : List Instruction} {labels : Table (String × String) String}
    {c : Config} {s : State} {words cells : List Int32} {ts : List Nat} {i : Nat} (h : c.Shown s)
    (hstack : c.stack = .ofNat cells.length :: (words ++ [0])) (hwords : words.length = i)
    (hheap : c.heap = cells ++ ts.map .ofNat)
    (hslots : ∀ (k : Nat) m, cls.methods[k]? = some m → m.slot = some (.ofNat k))
    (hts : List.Forall₂ (fun m t => ∃ label, labels.get? (cls.name, m.header.name) = some label ∧
      m.StandsAt is label t) cls.methods ts) : cls.Tabled is labels (View.offset i) s (.ofNat cells.length) where
  cell := by
    have haddress : stackBase + View.offset i = stackAt (i + 1 + 1) := by
      have hbase : stackBase = stackAt 0 := rfl
      rw [hbase]
      exact stackAt_add (by omega)
    rw [haddress]
    refine h.word (.stack ?_)
    rw [hstack, List.reverse_cons, List.reverse_append, List.reverse_singleton]
    simp [hwords]
  last := by
    rw [h.hp, hheap, List.length_append, List.length_map, ← hts.length_eq, Int32.ofNat_add]
  entry m hm := by
    obtain ⟨k, hk⟩ := List.getElem?_of_mem hm
    obtain ⟨hlt, hget⟩ := List.getElem?_eq_some_iff.mp hk
    have hlt' : k < ts.length := hts.length_eq ▸ hlt
    obtain ⟨label, hlabel, hstands⟩ := hts.get hlt hlt'
    rw [List.get_eq_getElem, hget] at hlabel hstands
    refine ⟨.ofNat k, label, ts[k], hslots k m hk, hlabel, hstands, ?_⟩
    rw [← Int32.ofNat_add]
    refine h.word (.heap ?_)
    rw [hheap, List.getElem?_append_right (Nat.le_add_right _ _), Nat.add_sub_cancel_left, List.getElem?_map,
      List.getElem?_eq_getElem hlt']
    rfl

namespace Program

/-- Resolution without problems binds each class in the outermost scope, at the offset of its place. -/
theorem resolve_cell (p : Program) (hs : p.resolve.2.problems = []) {i : Nat} {cls : ClassDecl}
    (hi : p.resolve.1.classes[i]? = some cls) :
    p.resolve.2.lookupOutermost cls.name = some ⟨0, cls.type, View.offset i, false⟩ := by
  obtain ⟨hresolved, hready⟩ := p.resolve_ready hs
  obtain ⟨t, ht, -⟩ := p.resolve_tables hs cls (List.mem_of_getElem? hi)
  obtain ⟨j, d, hj, hname, -, hlookup⟩ := hready.tabled cls.name t ht
  -- The table is of a class of this name, which stands at one place only.
  have hplace : i = j := by
    have hlt : i < (p.resolve.1.classes.map (·.name)).length := by
      rw [List.length_map]
      exact (List.getElem?_eq_some_iff.mp hi).1
    refine (List.getElem?_inj hlt hresolved.distinct).mp ?_
    rw [List.getElem?_map, List.getElem?_map, hi, hj, Option.map_some, Option.map_some, hname]
  subst hplace
  cases hi.symm.trans hj
  rw [hready.agrees.lookupOutermost, hlookup]

/-- The machine builds the table of each class of a sound program, unless the stack meets the heap before. -/
theorem tabled {p : Program} {main : List Instruction} {b : CodeBuffer} {ops : Array Op} {i : Nat} {cls : ClassDecl}
    (h : p.lowerMain .empty = .ok main b) (hp : p.Sound) (hn : (defined (main ++ b.routines)).Nodup)
    (hplaced : Placed (labels (main ++ b.routines) 0) ops 0 (main ++ b.routines)) (hi : p.classes[i]? = some cls) :
    ∃ stop, cls.BuiltUpTo (p.classes.take i) (main ++ b.routines) stop ∧
      ((∀ j < stop, ¬ Crowded ops j) → (∀ j ≤ stop, ∃ s, Visits ops j s ∧ s.ip = j) ∧
        ∀ s, Visits ops stop s → ∃ base, cls.Tabled (main ++ b.routines) b.methodLabels (View.offset i) s base) := by
  obtain ⟨lss, ls, behind, stop, hbuilt, hcode, rfl, hlen, hcount, hlabels⟩ := lowerMain_class h hp hi
  generalize main ++ b.routines = is at *
  refine ⟨_, hbuilt, fun hfree => ?_⟩
  have hfront : Placed (labels is 0) ops 0 (Code.tables lss ls) := by
    generalize labels is 0 = table at hplaced
    rw [hcode, placed_append] at hplaced
    exact hplaced.1
  obtain ⟨hway, c, words, cells, ts, ⟨s', hv', hshown, -⟩, hstack, hwords, hheap, hts⟩ := at_tables hfront hfree
  refine ⟨hway, fun s hv => ⟨.ofNat cells.length, ?_⟩⟩
  cases hv.unique hv'
  -- The memory holds the table, so its methods are few enough to have different slots.
  have hfew : cls.methods.length < 2 ^ 31 := by
    have hmem : memSize < 2 ^ 31 := by decide
    have hle := hshown.stack_le
    rw [hheap, List.length_append, List.length_map, ← hts.length_eq, hcount] at hle
    omega
  have hls := hlabels hfew
  refine hshown.tabled hstack (hwords.trans hlen) hheap (hp.classes i cls hi).slots ?_
  refine List.forall₂_iff_get.mpr ⟨hls.length_eq.trans hts.length_eq, fun k h₁ h₂ => ?_⟩
  have hk : k < ls.length := hls.length_eq ▸ h₁
  obtain ⟨hlabel, t, hstands⟩ := hls.get h₁ hk
  have hlookup := (lookup_labels hn).mpr hstands.names
  rw [hts.get hk h₂, Option.some.injEq] at hlookup
  subst hlookup
  exact ⟨_, hlabel, hstands⟩

end Program

/--
Dispatch tables are laid out by slot. Every method of a text that compiles is noted with the label of the routine
generated from its own parameters, declarations and body, and no two methods have a label or a routine in common. The
code of each class declaration ends at some address. Unless the stack has met the heap before, the run executes one
instruction after the other up to there, and then the cell that resolution has given to the class holds where its
table begins on the heap; the table ends where the heap does, and holds in the slot of each method the address of the
routine that is noted for the method.
-/
theorem compile_dispatches {source : String} {is : List Instruction} (h : compile source = .ok is) :
    ∃ p ops buffer, Program.ofSource source = .ok p ∧ link is = .ok ops ∧
      p.resolve.1.lowerParts .empty = .ok is buffer ∧ p.resolve.1.Noted is buffer.methodLabels ∧
      ∀ (i : Nat) cls, p.resolve.1.classes[i]? = some cls → ∃ b stop,
        p.resolve.2.lookupOutermost cls.name = some b ∧ cls.BuiltUpTo (p.resolve.1.classes.take i) is stop ∧
        ((∀ j < stop, ¬ Crowded ops j) → (∀ j ≤ stop, ∃ s, Visits ops j s ∧ s.ip = j) ∧
          ∀ s, Visits ops stop s → ∃ base, cls.Tabled is buffer.methodLabels b.offset s base) := by
  obtain ⟨p, hp, hs, ht, hlower⟩ := compile_accepted h
  have hsound := p.resolve_sound (Program.ofSource_valued hp) hs ht
  obtain ⟨-, -, -, -, -, hn, hw, -⟩ := Program.lower_segments hlower
  obtain ⟨main, b, hmain, rfl, hparts⟩ := Program.lower_ok hlower
  obtain ⟨es, henters⟩ := Program.lowerMain_enters hmain
  obtain ⟨ops, hlink, -, hplaced⟩ := link_placed hn hw
  refine ⟨p, ops, { b with routines := [] }, hp, hlink, hparts, henters.noted hsound, fun i cls hi => ?_⟩
  obtain ⟨stop, hbuilt, htabled⟩ := Program.tabled hmain hsound hn hplaced hi
  exact ⟨_, stop, p.resolve_cell hs hi, hbuilt, htabled⟩

/-- The run builds the table of the boxes, with the method that asks a box for its field. -/
theorem compile_dispatches_boxed : ∃ buffer cls stop s base,
    boxedProgram.resolve.1.lowerParts .empty = .ok boxedCode buffer ∧ boxedProgram.resolve.1.classes = [cls] ∧
      cls.methods.map (·.header.name) = ["get"] ∧ cls.BuiltUpTo [] boxedCode stop ∧ Visits boxedOps stop s ∧
      cls.Tabled boxedCode buffer.methodLabels (-2) s base := by
  obtain ⟨p, ops, buffer, hp, hlink, hparts, -, htables⟩ := compile_dispatches compile_boxed
  cases hlink.symm.trans link_boxed
  cases hp.symm.trans ofSource_boxed
  have htree : ∃ cls, boxedProgram.resolve.1.classes = [cls] ∧ cls.methods.map (·.header.name) = ["get"] ∧
      (boxedProgram.resolve.2.lookupOutermost cls.name).map (·.offset) = some (-2) :=
    ⟨_, rfl, rfl, by decide +kernel⟩
  obtain ⟨cls, hclasses, hmethods, hoffset⟩ := htree
  obtain ⟨b, stop, hb, hbuilt, hrun⟩ := htables 0 cls (by rw [hclasses]; rfl)
  rw [hb, Option.map_some, Option.some.injEq] at hoffset
  obtain ⟨hway, htabled⟩ := hrun fun j _ => boxed_not_crowded j
  obtain ⟨s, hv, -⟩ := hway stop (Nat.le_refl stop)
  obtain ⟨base, hbase⟩ := htabled s hv
  rw [hoffset] at hbase
  exact ⟨buffer, cls, stop, s, base, hparts, hclasses, hmethods, hbuilt, hv, hbase⟩

end FoolLang
