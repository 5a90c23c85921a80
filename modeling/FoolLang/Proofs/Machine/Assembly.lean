/-
Assembly text and instructions are inverse to each other: code whose labels are names is read back from its text,
whatever constants it has and however its labels are spelled; and what is read from any text, and what is generated
from any program, is such code.
-/
import FoolLang.Machine.Assembly
import FoolLang.Proofs.Code.Structured
import FoolLang.Proofs.Text.Spelling

namespace FoolLang.Machine

/-- The labels that an instruction mentions. -/
def Instruction.labels : Instruction → List String
  | .plain _ | .push _ => []
  | .pushLabel l | .jump _ l | .label l => [l]

/-- Whether all labels in some code are names. -/
def Named (code : List Instruction) : Prop := ∀ i ∈ code, ∀ l ∈ i.labels, Text.isName l.toList = true

namespace Assembly

variable {i : Instruction} {word name operand line : List Char}

/-! ## Pieces of a line -/

/-- A name with a colon defines the label, whatever else the name may mean. -/
theorem label?_colon (h : Text.isName name = true) : label? (name ++ [':']) = some name := by
  rw [label?, List.reverse_append]
  show (if Text.isName name.reverse.reverse then some name.reverse.reverse else none) = _
  rw [List.reverse_reverse, if_pos h]

/-- A line defines a label that is a name. -/
theorem label?_eq_some (h : label? line = some name) : line = name ++ [':'] ∧ Text.isName name = true := by
  unfold label? at h
  split at h
  · rename_i r hr
    split at h
    · rename_i hname
      cases h
      have hline := congrArg List.reverse hr
      rw [List.reverse_reverse, List.reverse_cons] at hline
      exact ⟨hline, hname⟩
    · cases h
  · cases h

/-- A line with a blank in it defines no label. -/
theorem label?_blank (h : ' ' ∈ line) : label? line = none := by
  cases hl : label? line with
  | none => rfl
  | some name =>
    obtain ⟨rfl, hname⟩ := label?_eq_some hl
    rcases List.mem_append.mp h with h | h
    · exact absurd (Text.isNameRest_of_isName hname ' ' h) (by decide)
    · exact absurd h (by decide)

/-- A mnemonic and an operand behind a blank. -/
theorem parts?_operand (hw : word ≠ []) (hlow : ∀ c ∈ word, c.isLower = true)
    (ho : ∀ c ∈ operand.head?, Text.isBlank c = false) :
    parts? (word ++ ' ' :: operand) = (Operand.ofText? operand).map fun o => (String.ofList word, some o) := by
  have htake : (word ++ ' ' :: operand).takeWhile Char.isLower = word := by
    rw [List.takeWhile_append_of_pos hlow, List.takeWhile_cons_of_neg (by decide), List.append_nil]
  have hdrop : (word ++ ' ' :: operand).dropWhile Char.isLower = ' ' :: operand := by
    rw [List.dropWhile_append_of_pos hlow, List.dropWhile_cons_of_neg (by decide)]
  have hblank : (' ' :: operand).dropWhile Text.isBlank = operand := by
    rw [List.dropWhile_cons_of_pos (by decide), Text.dropWhile_of_head ho]
  unfold parts?
  simp only [htake, hdrop, hblank]
  rw [if_neg hw, if_pos (by decide)]

/-- A name is an operand, and not a number. -/
theorem Operand.ofText?_name (h : Text.isName name = true) : Operand.ofText? name = some (.name name) := by
  obtain ⟨c, t, rfl, hstart, -⟩ := Text.isName_iff.mp h
  obtain ⟨hdigit, hsign⟩ := Text.not_isDigit_of_isNameStart hstart
  have hnumber : isNumber (c :: t) = false := by
    unfold isNumber
    split
    · rename_i he
      cases he
      exact absurd rfl hsign
    · simp [hdigit]
  rw [Operand.ofText?, hnumber, if_neg (by decide), if_pos h]

/-- The numeral of a word is an operand. -/
theorem Operand.ofText?_number (n : Int32) :
    Operand.ofText? (Text.ofInt32 n).toList = some (.number (Text.ofInt32 n).toList) := by
  have hnumber : isNumber (Text.ofInt32 n).toList = true := by
    rw [Text.ofInt32_toList]
    split
    · obtain ⟨hne, hall⟩ := Text.repr_digits n.toInt.toNat
      unfold isNumber
      split
      · rename_i s he
        rw [he] at hall
        exact absurd hall (by simp)
      · rw [Bool.and_eq_true, decide_eq_true_eq]
        exact ⟨hne, hall⟩
    · obtain ⟨hne, hall⟩ := Text.repr_digits (-n.toInt).toNat
      rw [isNumber, Bool.and_eq_true, decide_eq_true_eq]
      exact ⟨hne, hall⟩
  rw [Operand.ofText?, if_pos hnumber]

/-- What follows a mnemonic is a number or a name. -/
theorem Operand.name_of_ofText? {s : List Char} (h : Operand.ofText? s = some (.name name)) :
    Text.isName name = true := by
  unfold Operand.ofText? at h
  split at h
  · cases h
  · split at h
    · cases h
      assumption
    · cases h

/-! ## Lines of instructions -/

theorem Plain.mnemonic_lower (p : Plain) :
    p.mnemonic.toList ≠ [] ∧ p.mnemonic.toList.all Char.isLower = true := by
  rcases p with _ | (_ | _ | _ | _) | _ | _ | _ | (_ | _ | _ | _) | (_ | _ | _ | _) | _ | _ | _ <;> decide

theorem Jump.mnemonic_lower (j : Jump) :
    j.mnemonic.toList ≠ [] ∧ j.mnemonic.toList.all Char.isLower = true := by
  cases j <;> decide

/-- The text of an instruction with an operand. -/
theorem toList_append_blank (word operand : String) :
    (word ++ " " ++ operand).toList = word.toList ++ ' ' :: operand.toList := by
  rw [String.toList_append, String.toList_append, List.append_assoc]
  rfl

theorem text_push (n : Int32) : (Instruction.push n).text = "push" ++ " " ++ Text.ofInt32 n := rfl

theorem text_pushLabel (l : String) : (Instruction.pushLabel l).text = "push" ++ " " ++ l := rfl

theorem text_jump (j : Jump) (l : String) : (Instruction.jump j l).text = j.mnemonic ++ " " ++ l := rfl

theorem text_label (l : String) : (Instruction.label l).text.toList = l.toList ++ [':'] := String.toList_append

theorem isInk_of_isLower {s : List Char} (h : s.all Char.isLower = true) : ∀ c ∈ s, Text.IsInk c := fun c hc =>
  Text.isInk_of_isNameRest (Text.isNameRest_of_isLower (List.all_eq_true.mp h c hc))

theorem isInk_of_isName (h : Text.isName name = true) : name ≠ [] ∧ ∀ c ∈ name, Text.IsInk c := by
  refine ⟨?_, fun c hc => Text.isInk_of_isNameRest (Text.isNameRest_of_isName h c hc)⟩
  rintro rfl
  cases h

/-- The text of an instruction stands on a line of its own. -/
theorem text_isLine (h : ∀ l ∈ i.labels, Text.isName l.toList = true) : Text.IsLine i.text.toList := by
  have hpush : ∀ c ∈ "push".toList, Text.IsInk c := isInk_of_isLower (by decide)
  cases i with
  | plain p =>
    obtain ⟨hne, hlow⟩ := Plain.mnemonic_lower p
    exact .of_ink hne (isInk_of_isLower hlow)
  | push n =>
    obtain ⟨hne, hink⟩ := Text.isInk_of_mem_ofInt32 n
    rw [text_push, toList_append_blank]
    exact .of_ink_append (by decide) hpush hne hink
  | pushLabel l =>
    obtain ⟨hne, hink⟩ := isInk_of_isName (h l (List.mem_singleton_self l))
    rw [text_pushLabel, toList_append_blank]
    exact .of_ink_append (by decide) hpush hne hink
  | jump j l =>
    obtain ⟨hne, hlow⟩ := Jump.mnemonic_lower j
    obtain ⟨hne', hink⟩ := isInk_of_isName (h l (List.mem_singleton_self l))
    rw [text_jump, toList_append_blank]
    exact .of_ink_append hne (isInk_of_isLower hlow) hne' hink
  | label l =>
    obtain ⟨hne, hink⟩ := isInk_of_isName (h l (List.mem_singleton_self l))
    rw [text_label]
    refine .of_ink (by simp) fun c hc => ?_
    rcases List.mem_append.mp hc with hc | hc
    · exact hink c hc
    · cases List.mem_singleton.mp hc
      exact ⟨by decide, by decide⟩

/-- A line of a mnemonic and an operand. -/
theorem readLine_operand {word operand : String} {o : Operand} (hw : word.toList ≠ [])
    (hlow : word.toList.all Char.isLower = true) (hink : ∀ c ∈ operand.toList, Text.IsInk c)
    (ho : Operand.ofText? operand.toList = some o) :
    readLine (word ++ " " ++ operand).toList = instruction word (some o) := by
  rw [toList_append_blank, readLine, label?_blank (by simp)]
  rw [parts?_operand hw (List.all_eq_true.mp hlow) fun c hc => (hink c (List.mem_of_head? hc)).not_blank, ho,
    Option.map_some, String.ofList_toList]

/-- The text of an instruction is read as that instruction. -/
theorem readLine_text (h : ∀ l ∈ i.labels, Text.isName l.toList = true) : readLine i.text.toList = .ok i := by
  cases i with
  | plain p =>
    rcases p with _ | (_ | _ | _ | _) | _ | _ | _ | (_ | _ | _ | _) | (_ | _ | _ | _) | _ | _ | _ <;> rfl
  | push n =>
    rw [text_push, readLine_operand (by decide) (by decide) (Text.isInk_of_mem_ofInt32 n).2 (Operand.ofText?_number n)]
    simp only [instruction, if_true, Text.int32?_ofInt32]
  | pushLabel l =>
    have hname := h l (List.mem_singleton_self l)
    rw [text_pushLabel, readLine_operand (by decide) (by decide) (isInk_of_isName hname).2 (Operand.ofText?_name hname)]
    show Except.ok (Instruction.pushLabel (String.ofList l.toList)) = _
    rw [String.ofList_toList]
  | jump j l =>
    have hname := h l (List.mem_singleton_self l)
    obtain ⟨hne, hlow⟩ := Jump.mnemonic_lower j
    rw [text_jump, readLine_operand hne hlow (isInk_of_isName hname).2 (Operand.ofText?_name hname), instruction,
      if_neg (by cases j <;> decide), Jump.ofMnemonic?_mnemonic]
    show Except.ok (Instruction.jump j (String.ofList l.toList)) = _
    rw [String.ofList_toList]
  | label l =>
    rw [text_label, readLine, label?_colon (h l (List.mem_singleton_self l))]
    show Except.ok (Instruction.label (String.ofList l.toList)) = _
    rw [String.ofList_toList]

/-! ## Whole texts -/

theorem render_cons (i : Instruction) (code : List Instruction) :
    (render (i :: code)).toList = i.text.toList ++ '\n' :: (render code).toList := by
  rw [render, List.map_cons, String.join_cons, String.toList_append]
  show (i.text ++ "\n").toList ++ _ = _
  rw [String.toList_append, List.append_assoc]
  rfl

/-- The lines of the text of some code are read as that code, wherever they stand. -/
theorem readLines_render {code : List Instruction} (h : Named code) : ∀ n,
    readLines (Text.lines (render code).toList) n = .ok code := by
  induction code with
  | nil => exact fun n => rfl
  | cons i code ih =>
    intro n
    -- The text is cut at its first line break, and what stands before that is the text of the first instruction.
    have hi := h i List.mem_cons_self
    have hline := text_isLine hi
    obtain ⟨c, s, hs⟩ := List.exists_cons_of_ne_nil hline.nonempty
    have hread := readLine_text hi
    have hrest := ih (fun j hj => h j (List.mem_cons_of_mem i hj)) (n + 1)
    rw [render_cons, Text.lines_line _ hline.unbroken, readLines, hline.trim, hs]
    rw [hs] at hread
    dsimp only
    rw [hread]
    dsimp only
    rw [hrest]
    rfl

/-! ## What is read -/

theorem isName_of_parts? {word : String} (h : parts? line = some (word, some (.name name))) :
    Text.isName name = true := by
  unfold parts? at h
  dsimp only at h
  split at h
  · cases h
  · split at h
    · cases h
    · split at h
      · obtain ⟨o, ho, he⟩ := Option.map_eq_some_iff.mp h
        cases he
        exact Operand.name_of_ofText? ho
      · cases h

/-- An instruction has the operand as its label, if any. -/
theorem labels_of_instruction {word : String} {operand : Option Operand} (h : instruction word operand = .ok i) :
    ∀ l ∈ i.labels, ∃ s, operand = some (.name s) ∧ l = String.ofList s := by
  unfold instruction at h
  split at h
  · split at h
    · split at h <;> cases h
      exact fun l hl => absurd hl List.not_mem_nil
    · cases h
      exact fun l hl => ⟨_, rfl, List.mem_singleton.mp hl⟩
    · cases h
  · split at h
    · cases h
      exact fun l hl => ⟨_, rfl, List.mem_singleton.mp hl⟩
    · cases h
    · cases h
    · split at h <;> cases h
      exact fun l hl => absurd hl List.not_mem_nil

/-- The labels of what is read on a line are names. -/
theorem isName_of_readLine (h : readLine line = .ok i) : ∀ l ∈ i.labels, Text.isName l.toList = true := by
  intro l hl
  unfold readLine at h
  split at h
  · rename_i name hname
    cases h
    rw [List.mem_singleton.mp hl, String.toList_ofList]
    exact (label?_eq_some hname).2
  · split at h
    · rename_i word operand hparts
      obtain ⟨s, rfl, rfl⟩ := labels_of_instruction h l hl
      rw [String.toList_ofList]
      exact isName_of_parts? hparts
    · cases h

theorem named_of_readLines : ∀ {ls : List (List Char)} {n : Nat} {code : List Instruction},
    readLines ls n = .ok code → Named code
  | [], n, code, h => by
    cases h
    exact fun i hi => absurd hi List.not_mem_nil
  | line :: ls, n, code, h => by
    rw [readLines] at h
    split at h
    · exact named_of_readLines h
    · split at h
      · cases h
      · rename_i i hi
        cases hmore : readLines ls (n + 1) with
        | error d => rw [hmore] at h; cases h
        | ok more =>
          rw [hmore] at h
          cases h
          exact List.forall_mem_cons.mpr ⟨isName_of_readLine hi, named_of_readLines hmore⟩

/-! ## What is generated -/

theorem isName_label (k : Nat) : Text.isName (s!"label{k}").toList = true := by
  show Text.isName ("label" ++ k.repr).toList = true
  rw [String.toList_append]
  exact Text.isName_append (by decide) fun c hc => Text.isDigit_of_mem_repr hc

theorem isName_function (k : Nat) : Text.isName (s!"function{k}").toList = true := by
  show Text.isName ("function" ++ k.repr).toList = true
  rw [String.toList_append]
  exact Text.isName_append (by decide) fun c hc => Text.isDigit_of_mem_repr hc

/-- The labels of instructions stand in their code or are referred to. -/
theorem mem_of_labels {code : List Instruction} {l : String} (hi : i ∈ code) (hl : l ∈ i.labels) :
    l ∈ defined code ++ wanted code := by
  obtain ⟨before, behind, rfl⟩ := List.append_of_mem hi
  cases i <;> simp_all [defined, wanted, Instruction.labels]

/-- The labels that lowering draws are names. -/
theorem named_of_lower {p : Program} {code : List Instruction} (h : p.lower = .ok code) : Named code := by
  intro i hi l hl
  obtain ⟨k, rfl | rfl⟩ := Program.lower_labels h l (mem_of_labels hi hl)
  · exact isName_label k
  · exact isName_function k

/-! ## Text and instructions -/

/--
Text and instructions are inverse to each other. Code whose labels are names is read back from its text; what is
read from any text is such code; and so is what is generated from any tree.
-/
theorem read_render :
    (∀ code, Named code → read (render code) = .ok code) ∧
    (∀ source code, read source = .ok code → Named code ∧ read (render code) = .ok code) ∧
    ∀ (p : Program) (code : List Instruction), p.lower = .ok code → read (render code) = .ok code := by
  refine ⟨fun code h => readLines_render h 1, fun source code h => ?_, fun p code h => ?_⟩
  · have hnamed := named_of_readLines h
    exact ⟨hnamed, readLines_render hnamed 1⟩
  · exact readLines_render (named_of_lower h) 1

/-- Labels that are spelled like instructions, next to the instructions, and the least constant. -/
def lookalikes : List Instruction :=
  [.label "halt", .plain .halt, .label "push", .push (-2147483648), .pushLabel "push", .jump .always "b", .label "b"]

instance (code : List Instruction) : Decidable (Named code) :=
  inferInstanceAs (Decidable (∀ i ∈ code, ∀ l ∈ i.labels, Text.isName l.toList = true))

theorem read_render_lookalikes : Named lookalikes ∧
    render lookalikes = "halt:\nhalt\npush:\npush -2147483648\npush push\nb b\nb:\n" ∧
    read (render lookalikes) = .ok lookalikes := by
  have hnamed : Named lookalikes := by decide
  exact ⟨hnamed, by decide, read_render.1 lookalikes hnamed⟩

end Assembly

end FoolLang.Machine
