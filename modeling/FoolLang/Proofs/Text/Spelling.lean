/-
What is written can be read back: a line of visible characters is a line again and keeps its ends, digits have
the value they were written for, and the numeral of every word of 32 bits reads as that word.
-/
import FoolLang.Text.Blank
import FoolLang.Text.Lines
import FoolLang.Text.Name
import FoolLang.Text.Numeral

namespace FoolLang.Text

variable {c : Char} {s t : List Char}

/-! ## Characters -/

/-- Whether a character is a visible one of ASCII. -/
def IsInk (c : Char) : Prop := 33 ≤ c.toNat ∧ c.toNat ≤ 126

theorem IsInk.not_blank (h : IsInk c) : isBlank c = false := by
  obtain ⟨hlow, hhigh⟩ := h
  simp only [isBlank, Bool.or_eq_false_iff, Bool.and_eq_false_iff, decide_eq_false_iff_not, beq_eq_false_iff_ne]
  omega

theorem IsInk.not_break (h : IsInk c) : c ≠ '\n' ∧ c ≠ '\r' := by
  constructor <;> rintro rfl <;> exact absurd h.1 (by decide)

/-- Letters are those of ASCII. -/
theorem isAlpha_bounds (h : c.isAlpha = true) : 65 ≤ c.toNat ∧ c.toNat ≤ 90 ∨ 97 ≤ c.toNat ∧ c.toNat ≤ 122 := by
  rcases Bool.or_eq_true_iff.mp h with h | h
  · obtain ⟨hlow, hhigh⟩ := of_decide_eq_true h
    exact .inl ⟨UInt32.le_iff_toNat_le.mp hlow, UInt32.le_iff_toNat_le.mp hhigh⟩
  · obtain ⟨hlow, hhigh⟩ := Bool.and_eq_true_iff.mp h
    exact .inr ⟨UInt32.le_iff_toNat_le.mp (of_decide_eq_true hlow), UInt32.le_iff_toNat_le.mp (of_decide_eq_true hhigh)⟩

theorem isDigit_bounds (h : c.isDigit = true) : 48 ≤ c.toNat ∧ c.toNat ≤ 57 := Char.isDigit_iff_toNat.mp h

theorem isInk_of_isNameRest (h : isNameRest c = true) : IsInk c := by
  simp only [isNameRest, Char.isAlphanum, Bool.or_eq_true, beq_iff_eq] at h
  rcases h with (halpha | hdigit) | rfl
  · have := isAlpha_bounds halpha
    unfold IsInk
    omega
  · have := isDigit_bounds hdigit
    unfold IsInk
    omega
  · exact ⟨by decide, by decide⟩

theorem isNameRest_of_isDigit (h : c.isDigit = true) : isNameRest c = true := by simp [isNameRest, Char.isAlphanum, h]

theorem isNameRest_of_isLower (h : c.isLower = true) : isNameRest c = true := by
  have halpha : c.isAlpha = true := Bool.or_eq_true_iff.mpr (.inr h)
  simp [isNameRest, Char.isAlphanum, halpha]

/-- No digit and no sign begins a name. -/
theorem not_isDigit_of_isNameStart (h : isNameStart c = true) : c.isDigit = false ∧ c ≠ '-' := by
  constructor
  · rw [Bool.eq_false_iff]
    intro hdigit
    have hbounds := isDigit_bounds hdigit
    simp only [isNameStart, Bool.or_eq_true, beq_iff_eq] at h
    rcases h with halpha | rfl
    · have := isAlpha_bounds halpha
      omega
    · exact absurd hbounds.2 (by decide)
  · rintro rfl
    exact absurd h (by decide)

/-! ## Lines -/

/-- A line of a text, and the rest of the text. -/
theorem lines_line (t : List Char) :
    ∀ {s : List Char}, (∀ c ∈ s, c ≠ '\n' ∧ c ≠ '\r') → lines (s ++ '\n' :: t) = s :: lines t
  | [], _ => by rw [List.nil_append, lines]
  | c :: s, h => by
    have hrest := lines_line t fun d hd => h d (List.mem_cons_of_mem c hd)
    obtain ⟨hnewline, hreturn⟩ := h c List.mem_cons_self
    rw [List.cons_append, lines, hrest]
    · exact hnewline
    · rintro u rfl
      exact absurd rfl hreturn

theorem dropWhile_of_head {p : Char → Bool} (h : ∀ c ∈ s.head?, p c = false) : s.dropWhile p = s := by
  cases s with
  | nil => rfl
  | cons c s => rw [List.dropWhile_cons_of_neg]; simpa using h c rfl

/-- A text that neither begins nor ends with a blank. -/
theorem trim_of_ends (h : ∀ c ∈ s.head?, isBlank c = false) (h' : ∀ c ∈ s.getLast?, isBlank c = false) :
    trim s = s := by
  rw [trim, dropWhile_of_head h, dropWhile_of_head (by rwa [List.head?_reverse]), List.reverse_reverse]

/-- A text that stands on a line of its own, without blanks around it. -/
structure IsLine (s : List Char) : Prop where
  nonempty : s ≠ []
  unbroken : ∀ c ∈ s, c ≠ '\n' ∧ c ≠ '\r'
  trim : trim s = s

theorem IsLine.of_ink (hs : s ≠ []) (h : ∀ c ∈ s, IsInk c) : IsLine s where
  nonempty := hs
  unbroken c hc := (h c hc).not_break
  trim := trim_of_ends (fun c hc => (h c (List.mem_of_head? hc)).not_blank)
    fun c hc => (h c (List.mem_of_getLast? hc)).not_blank

/-- Two visible texts with a blank between them. -/
theorem IsLine.of_ink_append (hs : s ≠ []) (h : ∀ c ∈ s, IsInk c) (ht : t ≠ []) (h' : ∀ c ∈ t, IsInk c) :
    IsLine (s ++ ' ' :: t) := by
  refine ⟨by simp, fun c hc => ?_, trim_of_ends (fun c hc => ?_) fun c hc => ?_⟩
  · rcases List.mem_append.mp hc with hc | hc
    · exact (h c hc).not_break
    · rcases List.mem_cons.mp hc with rfl | hc
      · exact ⟨by decide, by decide⟩
      · exact (h' c hc).not_break
  · obtain ⟨d, s, rfl⟩ := List.exists_cons_of_ne_nil hs
    cases hc
    exact (h c List.mem_cons_self).not_blank
  · have hd := List.getLast?_eq_some_getLast ht
    rw [List.getLast?_append, List.getLast?_cons_of_ne_nil ht, hd] at hc
    cases hc
    exact (h' _ (List.mem_of_getLast? hd)).not_blank

/-! ## Names -/

theorem isName_iff : isName s = true ↔ ∃ c t, s = c :: t ∧ isNameStart c = true ∧ ∀ d ∈ t, isNameRest d = true := by
  cases s with
  | nil => simp [isName]
  | cons c s =>
    rw [isName, Bool.and_eq_true, List.all_eq_true]
    exact ⟨fun h => ⟨c, s, rfl, h⟩, fun ⟨_, _, he, h⟩ => by cases he; exact h⟩

theorem isNameRest_of_isName (h : isName s = true) : ∀ c ∈ s, isNameRest c = true := by
  obtain ⟨c, t, rfl, hstart, hrest⟩ := isName_iff.mp h
  refine List.forall_mem_cons.mpr ⟨?_, hrest⟩
  simp only [isNameStart, isNameRest, Char.isAlphanum, Bool.or_eq_true] at hstart ⊢
  exact hstart.imp_left .inl

/-- A name and digits are a name. -/
theorem isName_append (h : isName s = true) (ht : ∀ c ∈ t, c.isDigit = true) : isName (s ++ t) = true := by
  obtain ⟨c, s, rfl, hstart, hrest⟩ := isName_iff.mp h
  refine isName_iff.mpr ⟨c, s ++ t, rfl, hstart, fun d hd => ?_⟩
  rcases List.mem_append.mp hd with hd | hd
  · exact hrest d hd
  · exact isNameRest_of_isDigit (ht d hd)

/-! ## Numerals -/

/-- The digits of a number, as they are written. -/
theorem isDigit_of_mem_repr {n : Nat} (h : c ∈ n.repr.toList) : c.isDigit = true := by
  rw [Nat.toList_repr] at h
  exact Nat.isDigit_of_mem_toDigits (by decide) (by decide) h

theorem repr_digits (n : Nat) : n.repr.toList ≠ [] ∧ n.repr.toList.all Char.isDigit = true := by
  refine ⟨?_, List.all_eq_true.mpr fun c hc => isDigit_of_mem_repr hc⟩
  rw [Nat.toList_repr]
  exact Nat.toDigits_ne_nil

theorem nat?_repr (n : Nat) : nat? n.repr.toList = some n := by
  rw [nat?, if_pos (repr_digits n), digitsValue, Nat.toList_repr]
  have hvalue : Nat.ofDigitChars 10 (Nat.toDigits 10 n) 0 = n := Nat.ofDigitChars_ten_toDigits
  rw [Nat.ofDigitChars_eq_foldl] at hvalue
  exact congrArg some hvalue

/-- The characters of the numeral of a word: digits, after a minus sign where the word is negative. -/
theorem ofInt32_toList (n : Int32) : (ofInt32 n).toList =
    if 0 ≤ n.toInt then n.toInt.toNat.repr.toList else '-' :: (-n.toInt).toNat.repr.toList := by
  rw [ofInt32, Int.toString_eq_repr, Int.repr_eq_if]
  split
  · rfl
  · rw [String.toList_append]
    rfl

theorem isInk_of_mem_ofInt32 (n : Int32) : (ofInt32 n).toList ≠ [] ∧ ∀ c ∈ (ofInt32 n).toList, IsInk c := by
  have hdigits : ∀ m : Nat, ∀ c ∈ m.repr.toList, IsInk c := fun m c hc =>
    isInk_of_isNameRest (isNameRest_of_isDigit (isDigit_of_mem_repr hc))
  rw [ofInt32_toList]
  split
  · exact ⟨(repr_digits _).1, hdigits _⟩
  · exact ⟨List.cons_ne_nil _ _, List.forall_mem_cons.mpr ⟨⟨by decide, by decide⟩, hdigits _⟩⟩

/-- The first character of a number without a sign is a digit. -/
theorem int?_of_digits {n : Nat} (hdigits : ∀ c ∈ s, c.isDigit = true) (h : nat? s = some n) :
    int? s = some (n : Int) := by
  unfold int?
  split
  · exact absurd (hdigits '-' List.mem_cons_self) (by decide)
  · exact absurd (hdigits '+' List.mem_cons_self) (by decide)
  · rw [h]
    rfl

theorem int?_ofInt32 (n : Int32) : int? (ofInt32 n).toList = some n.toInt := by
  rw [ofInt32_toList]
  split
  · rename_i hpos
    rw [int?_of_digits (fun c hc => isDigit_of_mem_repr hc) (nat?_repr _), Int.toNat_of_nonneg hpos]
  · rename_i hneg
    rw [int?, nat?_repr]
    show some (-((-n.toInt).toNat : Int)) = some n.toInt
    congr 1
    omega

/-- Every word is read back from its numeral. -/
theorem int32?_ofInt32 (n : Int32) : int32? (ofInt32 n).toList = some n := by
  have hlow := n.le_toInt
  have hhigh := n.toInt_lt
  rw [int32?, int?_ofInt32]
  show (if -2147483648 ≤ n.toInt ∧ n.toInt ≤ 2147483647 then some (Int32.ofInt n.toInt) else none) = some n
  rw [if_pos (by omega), Int32.ofInt_toInt]

end FoolLang.Text
