/-
The shape of generated code, for every tree that is lowered at all: the main code up to its halt, then one
routine after the other. Labels are distinct and defined, jumps go forward and stay in their segment, and
what is pushed as an address is the entry of a routine.
-/
import FoolLang.Proofs.Code.Lowered
import FoolLang.Proofs.Machine.Onward
import Mathlib.Data.List.Induction
import Mathlib.Data.List.Nodup

namespace FoolLang

open Machine

/-! ## Dispatch tables -/

section

variable (ls : List String)

theorem Code.defined_dispatchTable : defined (dispatchTable ls) = [] := by
  have hslots : defined (ls.flatMap fun l => .pushLabel l :: allocate) = [] := by
    induction ls with
    | nil => rfl
    | cons l ls ih => rw [List.flatMap_cons, defined_append, ih]; rfl
  exact hslots

theorem Code.wanted_dispatchTable : wanted (dispatchTable ls) = ls := by
  have hslots : wanted (ls.flatMap fun l => .pushLabel l :: allocate) = ls := by
    induction ls with
    | nil => rfl
    | cons l ls ih => rw [List.flatMap_cons, wanted_append, ih]; rfl
  exact hslots

theorem Code.pushed_dispatchTable : pushed (dispatchTable ls) = ls := by
  have hslots : pushed (ls.flatMap fun l => .pushLabel l :: allocate) = ls := by
    induction ls with
    | nil => rfl
    | cons l ls ih => rw [List.flatMap_cons, pushed_append, ih]; rfl
  exact hslots

theorem Code.forward_dispatchTable : Forward [] (dispatchTable ls) := by
  have hslots : Forward [] (ls.flatMap fun l => .pushLabel l :: allocate) := by
    induction ls with
    | nil => trivial
    | cons l ls ih =>
      rw [List.flatMap_cons, forward_append]
      exact ⟨trivial, ih⟩
  exact hslots

end

variable {b b' b₁ b₂ : CodeBuffer} {is js aside : List Instruction} {n : Nat}

/-- The table of a class may be built in any order of its slots. -/
theorem Lowers.dispatchTable {ls ms : List String} (h : Lowers b b' (Code.dispatchTable ls) aside n)
    (hp : ls.Perm ms) : Lowers b b' (Code.dispatchTable ms) aside (Machine.width (Code.dispatchTable ms)) := by
  obtain ⟨hr, -, hd, hc, -, hs⟩ := h
  rw [Code.defined_dispatchTable] at hd hc
  rw [Code.wanted_dispatchTable] at hc
  refine ⟨hr, rfl, ?_, ?_, Code.forward_dispatchTable ms, hs.of_pushed fun l hl => ?_⟩
  · rw [Code.defined_dispatchTable]
    exact hd
  · intro l hl
    rw [Code.defined_dispatchTable]
    rw [Code.wanted_dispatchTable, List.mem_append] at hl
    exact hc l (List.mem_append.mpr (hl.imp_left hp.mem_iff.mpr))
  · rw [Code.pushed_dispatchTable] at hl ⊢
    exact hp.mem_iff.mpr hl

/-! ## Code put together -/

/-- A lowering has given some code and put that of some routines aside. -/
def Gives (b b' : CodeBuffer) (is : List Instruction) : Prop := ∃ aside n, Lowers b b' is aside n

theorem LowersWith.gives {routines : List Routine} {laid : Array Op → List (Nat × Routine) → Nat → Prop}
    (h : LowersWith b b' is n routines laid) : Gives b b' is := by
  obtain ⟨aside, hl, -⟩ := h
  exact ⟨aside, n, hl⟩

theorem Gives.append (h : Gives b b₁ is) (h' : Gives b₁ b₂ js) : Gives b b₂ (is ++ js) := by
  obtain ⟨aside, m, hl⟩ := h
  obtain ⟨aside', n, hl'⟩ := h'
  exact ⟨_, _, hl.append hl'⟩

theorem ClassDecl.lower_gives {c : ClassDecl} (h : c.lower b = .ok is b') : Gives b b' is := by
  rw [ClassDecl.lower] at h
  obtain ⟨slots, b₁, hms, h⟩ := Lowering.bind_ok h
  cases h
  obtain ⟨-, aside, hl, -⟩ := lowerMethods_lowers c.name c.methods hms
  have hload : Lowers b b [Code.load .hp] [] 1 := .flat ⟨rfl, rfl⟩
  have hcode : [Code.load .hp] ++ slots.flatMap (Code.entry ·.2) = Code.dispatchTable (slots.map (·.2)) := by
    rw [Code.dispatchTable, List.flatMap_map]
    rfl
  have htable := hload.append hl
  rw [hcode] at htable
  exact ⟨_, _, htable.dispatchTable ((List.mergeSort_perm _ _).map _).symm⟩

theorem ClassDecl.lowerAll_gives (cs : List ClassDecl) : ∀ {b b' : CodeBuffer} {is : List Instruction},
    lowerAll cs b = .ok is b' → Gives b b' is := by
  induction cs with
  | nil =>
    intro b b' is h
    rw [lowerAll] at h
    cases h
    exact ⟨[], 0, .flat ⟨rfl, rfl⟩⟩
  | cons c cs ih =>
    intro b b' is h
    rw [lowerAll] at h
    obtain ⟨code, b₁, hc, h⟩ := Lowering.bind_ok h
    obtain ⟨more, b₂, hcs, h⟩ := Lowering.bind_ok h
    cases h
    exact (lower_gives hc).append (ih hcs)

theorem Program.lowerMain_gives {p : Program} (h : p.lowerMain b = .ok is b') :
    ∃ main, is = main ++ [.plain .halt] ∧ Gives b b' main := by
  cases p with
  | letIn classes decls body =>
    rw [lowerMain] at h
    obtain ⟨classCode, b₁, hclasses, h⟩ := Lowering.bind_ok h
    obtain ⟨declCode, b₂, hdecls, h⟩ := Lowering.bind_ok h
    obtain ⟨bodyCode, b₃, hbody, h⟩ := Lowering.bind_ok h
    cases h
    have hpush : Gives b b [.push 0] := ⟨[], 1, .flat ⟨rfl, rfl⟩⟩
    have hdecls := (Decl.lowerAll_lowers decls hdecls).gives
    have hbody := (body.lower_lowers hbody).with.gives
    exact ⟨_, rfl, ((hpush.append (ClassDecl.lowerAll_gives classes hclasses)).append hdecls).append hbody⟩
  | expr body =>
    rw [lowerMain] at h
    obtain ⟨bodyCode, b₁, hbody, h⟩ := Lowering.bind_ok h
    cases h
    exact ⟨_, rfl, (body.lower_lowers hbody).with.gives⟩

/-! ## Segments -/

/-- The addresses of a jump and of its target lie in one of some segments that stand one behind the other. -/
def InSegment (segments : List (List Instruction)) (a t : Nat) : Prop :=
  ∃ before segment behind, segments = before ++ segment :: behind ∧
    width before.flatten ≤ a ∧ a < t ∧ t < width before.flatten + width segment

section

variable {table : List (String × Nat)} {ops : Array Op} {a t : Nat} {j : Jump} {l : String}

/-- Code whose jumps go forward, up to one more instruction that is no jump and has no label behind it. -/
def Closed (is : List Instruction) : Prop := ∃ body p, is = body ++ [.plain p] ∧ Forward [] body

theorem IsRoutine.closed (h : IsRoutine l is) : Closed is := by
  obtain ⟨body, rfl, hf⟩ := h
  exact ⟨.label l :: body, .jumpSubroutine, rfl, hf⟩

theorem Closed.defined_bounds (h : Closed is) (hp : Placed table ops a is) : ∀ l ∈ defined is,
    ∃ t, table.lookup l = some t ∧ t < a + width is := by
  obtain ⟨body, p, rfl, hf⟩ := h
  rw [placed_append] at hp
  intro l hl
  rw [defined_append] at hl
  obtain ⟨t, ht, -, hhigh⟩ := hp.1.defined_bounds l ((List.mem_append.mp hl).resolve_right List.not_mem_nil)
  refine ⟨t, ht, ?_⟩
  rw [width_append]
  simp only [width]
  omega

theorem Closed.jump_bounds (h : Closed is) (hp : Placed table ops a is) {x : Nat} (hlow : a ≤ x)
    (hhigh : x < a + width is) (hx : ops[x]? = some (.jump j t)) : x < t ∧ t < a + width is := by
  obtain ⟨body, p, rfl, hf⟩ := h
  rw [placed_append] at hp
  rw [width_append] at hhigh ⊢
  simp only [width] at hhigh ⊢
  by_cases hlast : x < a + width body
  · have hbounds := hf.bounds hp.1 x hlow hlast hx
    omega
  · have hlast : x = a + width body := by omega
    subst hlast
    rw [hp.2.1] at hx
    cases hx

/-- The jumps in segments one behind the other stay in their segment and go forward. -/
theorem inSegment_of_placed (segments : List (List Instruction)) (hclosed : ∀ s ∈ segments, Closed s)
    (hp : Placed table ops 0 segments.flatten) {x : Nat} (hhigh : x < width segments.flatten)
    (hx : ops[x]? = some (.jump j t)) : InSegment segments x t := by
  induction segments using List.reverseRecOn with
  | nil => cases hhigh
  | append_singleton before segment ih =>
    rw [List.flatten_append, List.flatten_singleton, placed_append, Nat.zero_add] at hp
    rw [List.flatten_append, List.flatten_singleton, width_append] at hhigh
    by_cases hbefore : x < width before.flatten
    · obtain ⟨front, s, behind, rfl, hbounds⟩ :=
        ih (fun s hs => hclosed s (List.mem_append_left _ hs)) hp.1 hbefore
      exact ⟨front, s, behind ++ [segment], by simp, hbounds⟩
    · have hlow : width before.flatten ≤ x := by omega
      have hlast := hclosed segment (List.mem_append_right _ List.mem_cons_self)
      obtain ⟨hup, hend⟩ := hlast.jump_bounds hp.2 hlow hhigh hx
      exact ⟨before, segment, [], rfl, hlow, hup, hend⟩

theorem defined_bounds_of_placed (segments : List (List Instruction)) (hclosed : ∀ s ∈ segments, Closed s)
    (hp : Placed table ops 0 segments.flatten) : ∀ l ∈ defined segments.flatten,
    ∃ t, table.lookup l = some t ∧ t < width segments.flatten := by
  induction segments using List.reverseRecOn with
  | nil => exact fun _ hl => (List.not_mem_nil hl).elim
  | append_singleton before segment ih =>
    rw [List.flatten_append, List.flatten_singleton] at hp ⊢
    rw [placed_append, Nat.zero_add] at hp
    intro l hl
    rw [defined_append] at hl
    rw [width_append]
    rcases List.mem_append.mp hl with hl | hl
    · obtain ⟨t, ht, hlt⟩ := ih (fun s hs => hclosed s (List.mem_append_left _ hs)) hp.1 l hl
      exact ⟨t, ht, by omega⟩
    · exact (hclosed segment (List.mem_append_right _ List.mem_cons_self)).defined_bounds hp.2 l hl

end

/-! ## Programs -/

theorem mem_labels_address {is : List Instruction} (hn : (defined is).Nodup) {x : String × Nat} {t : Nat}
    (hx : x ∈ labels is 0) (ht : (labels is 0).lookup x.1 = some t) : x.2 = t := by
  have hx' := lookup_of_mem (by rw [labels_map]; exact hn) hx
  rw [ht] at hx'
  exact (Option.some.inj hx').symm

/-- What is generated for a program: main code up to its halt, and the code put aside. -/
theorem Program.lower_parts {p : Program} {is : List Instruction} (h : p.lower = .ok is) :
    ∃ main aside b n, is = main ++ [.plain .halt] ++ aside ∧ Lowers .empty b main aside n := by
  obtain ⟨code, b₁, hmain, rfl, -⟩ := lower_ok h
  obtain ⟨main, rfl, aside, n, hl⟩ := lowerMain_gives hmain
  rw [show b₁.routines = aside from hl.routines]
  exact ⟨main, aside, b₁, n, rfl, hl⟩

/-- What is generated for a program: main code up to its halt, routines, and labels that are distinct and known. -/
theorem Program.lower_segments {p : Program} {is : List Instruction} (h : p.lower = .ok is) :
    ∃ (main : List Instruction) (rs : List (String × List Instruction)),
      is = main ++ [.plain .halt] ++ rs.flatMap (·.2) ∧ Forward [] main ∧
      (∀ r ∈ rs, IsRoutine r.1 r.2) ∧ (defined is).Nodup ∧ (∀ l ∈ wanted is, l ∈ defined is) ∧
      ∀ l ∈ pushed is, l ∈ rs.map (·.1) := by
  obtain ⟨main, aside, b, n, rfl, hl⟩ := lower_parts h
  obtain ⟨-, -, hd, hc, hf, rs, rfl, hrs, hp⟩ := hl
  refine ⟨main, rs, rfl, hf, hrs, ?_, ?_, ?_⟩
  · simpa [defined] using hd.nodup
  · simpa [defined, wanted] using hc
  · simpa [pushed] using hp

/-- The labels of generated code are those that lowering draws. -/
theorem Program.lower_labels {p : Program} {is : List Instruction} (h : p.lower = .ok is) :
    ∀ l ∈ defined is ++ wanted is, ∃ k : Nat, l = s!"label{k}" ∨ l = s!"function{k}" := by
  obtain ⟨main, aside, b, n, rfl, hl⟩ := lower_parts h
  have hdrawn : ∀ l ∈ defined main ++ defined aside, ∃ k : Nat, l = s!"label{k}" ∨ l = s!"function{k}" := by
    intro l hl'
    rcases hl.draws.drawn l hl' with ⟨k, -, -, hk⟩ | ⟨k, -, -, hk⟩
    · exact ⟨k, .inl hk⟩
    · exact ⟨k, .inr hk⟩
  intro l hl'
  rcases List.mem_append.mp hl' with hl' | hl'
  · exact hdrawn l (by simpa [defined] using hl')
  · exact hdrawn l (hl.closed l (by simpa [wanted] using hl'))

/-- Generated code links. -/
theorem Program.lower_links {p : Program} {is : List Instruction} (h : p.lower = .ok is) :
    ∃ ops, link is = .ok ops := by
  obtain ⟨main, rs, -, -, -, hn, hw, -⟩ := lower_segments h
  obtain ⟨ops, hlink, -⟩ := link_placed hn hw
  exact ⟨ops, hlink⟩

theorem IsRoutine.entry_mem {l : String} (h : IsRoutine l is) : [l].Sublist (defined is) := by
  obtain ⟨body, rfl, -⟩ := h
  exact (List.nil_sublist _).cons_cons l

/-- The entries of routines are among their labels, each as often as it is the entry of one. -/
theorem entries_sublist : ∀ {rs : List (String × List Instruction)}, (∀ r ∈ rs, IsRoutine r.1 r.2) →
    (rs.map (·.1)).Sublist (defined (rs.flatMap (·.2)))
  | [], _ => .slnil
  | r :: rs, h => by
    rw [List.map_cons, List.flatMap_cons, defined_append]
    exact (h r List.mem_cons_self).entry_mem.append (entries_sublist fun r hr => h r (List.mem_cons_of_mem _ hr))

/--
Generated code links and its control flow is structured, whatever tree it was generated for. Its labels are
distinct, those it refers to are among them, and the address of each is in the code. It is the main code up to a
halt and then routines, each from its entry to a jump back; jumps stay in their segment and go forward; each
label that is pushed is the entry of one routine. So, wherever the machine starts, it comes to a call, a return, a
halt or a fault within as many instructions as the code is long.
-/
theorem Program.lower_structured {p : Program} {is : List Instruction} (h : p.lower = .ok is) :
    (defined is).Nodup ∧ (∀ l ∈ wanted is, l ∈ defined is) ∧ ∃ ops, link is = .ok ops ∧
      (∀ x ∈ labels is 0, x.2 < ops.size) ∧
      (∃ (main : List Instruction) (rs : List (String × List Instruction)),
        is = main ++ [.plain .halt] ++ rs.flatMap (·.2) ∧ (∀ r ∈ rs, IsRoutine r.1 r.2) ∧
        (∀ (a : Nat) (j : Jump) (t : Nat), ops[a]? = some (.jump j t) →
          InSegment ((main ++ [.plain .halt]) :: rs.map (·.2)) a t) ∧
        ∀ l ∈ pushed is, (rs.map (·.1)).count l = 1) ∧
      ∀ s, ∃ k ≤ ops.size, ∃ s', Machine.run ops k s = (.unfinished, s') ∧ Breaks ops s' := by
  obtain ⟨main, rs, rfl, hf, hrs, hn, hw, hp⟩ := lower_segments h
  obtain ⟨ops, hlink, hsize, hplaced⟩ := link_placed hn hw
  let segments := (main ++ [.plain .halt]) :: rs.map (·.2)
  have hcode : main ++ [.plain .halt] ++ rs.flatMap (·.2) = segments.flatten := rfl
  have hclosed : ∀ s ∈ segments, Closed s := by
    intro s hs
    rcases List.mem_cons.mp hs with rfl | hs
    · exact ⟨main, .halt, rfl, hf⟩
    · obtain ⟨r, hr, rfl⟩ := List.mem_map.mp hs
      exact (hrs r hr).closed
  have hjumps : ∀ (a : Nat) (j : Jump) (t : Nat), ops[a]? = some (.jump j t) → InSegment segments a t := by
    intro a j t ha
    have hlt := (Array.getElem?_eq_some_iff.mp ha).1
    rw [hsize, hcode] at hlt
    rw [hcode] at hplaced
    exact inSegment_of_placed segments hclosed hplaced hlt ha
  have honward : Onward ops := by
    intro a j t ha
    obtain ⟨-, -, -, -, -, hup, -⟩ := hjumps a j t ha
    exact hup
  refine ⟨hn, hw, ops, hlink, ?_, ⟨main, rs, rfl, hrs, hjumps, fun l hl => ?_⟩, fun s => ?_⟩
  · intro x hx
    have hmem : x.1 ∈ defined segments.flatten := by
      rw [← hcode, ← labels_map _ 0]
      exact List.mem_map_of_mem hx
    obtain ⟨t, ht, hlt⟩ := defined_bounds_of_placed segments hclosed (hcode ▸ hplaced) _ hmem
    rw [mem_labels_address hn hx ht, hsize, hcode]
    exact hlt
  · have hentries : (rs.map (·.1)).Nodup := by
      refine ((entries_sublist hrs).trans ?_).nodup hn
      rw [defined_append]
      exact List.sublist_append_right _ _
    exact List.count_eq_one_of_mem hentries (hp l hl)
  · exact honward.breaks ops.size s (Nat.sub_le _ _)

/-- `let fun f:bool () let fun g:bool () true; in if (g()) then {1 <= 2} else {false}; in f();` -/
def nestedRoutines : Program :=
  .letIn [] [.function ⟨"f", .bool, [], 1⟩ [.function ⟨"g", .bool, [], 1⟩ [] (.bool true 1)]
    (.cond (.call "g" [] (some ⟨⟨1, .arrow ⟨[], .bool⟩, -2, false⟩, 1⟩) 1)
      (.binary .lessEqual (.int 1 1) (.int 2 1) 1) (.bool false 1) 1)]
    (.call "f" [] (some ⟨⟨0, .arrow ⟨[], .bool⟩, -2, false⟩, 0⟩) 1)

/-- Two routines are pushed by this program, and it has no other labels that are pushed. -/
theorem nestedRoutines_structured : ∃ code, nestedRoutines.lower = .ok code ∧
    pushed code = ["function1", "function0"] ∧ (defined code).Nodup ∧ ∃ ops, link code = .ok ops ∧
      ∀ s, ∃ k ≤ ops.size, ∃ s', Machine.run ops k s = (.unfinished, s') ∧ Breaks ops s' := by
  have hlower : ∃ code, nestedRoutines.lower = .ok code ∧ pushed code = ["function1", "function0"] :=
    ⟨_, rfl, by decide⟩
  obtain ⟨code, hcode, hpushed⟩ := hlower
  obtain ⟨hn, -, ops, hlink, -, -, hbreaks⟩ := Program.lower_structured hcode
  exact ⟨code, hcode, hpushed, hn, ops, hlink, hbreaks⟩

end FoolLang
