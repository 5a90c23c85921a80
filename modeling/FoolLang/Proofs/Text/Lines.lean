/-
Where a part of a text stands among its lines: on the line that the newlines in front of it tell, behind what is between
the last of them and the part. This holds for every line ending, and on a last line that has none.
-/
import FoolLang.Text.Lines
import Mathlib.Data.List.Induction

namespace FoolLang.Text

variable {s t v : List Char} {c : Char}

/-- Some whole lines: nothing, or a text that ends in a newline. -/
def Ended (s : List Char) : Prop := s = [] ∨ ∃ t, s = t ++ ['\n']

/-- A text is whole lines and what comes behind the last newline. -/
theorem exists_ended (s : List Char) : ∃ t u, s = t ++ u ∧ Ended t ∧ '\n' ∉ u := by
  induction s using List.reverseRecOn with
  | nil => exact ⟨[], [], rfl, .inl rfl, List.not_mem_nil⟩
  | append_singleton s c ih =>
    by_cases hc : c = '\n'
    · exact ⟨s ++ [c], [], by simp, .inr ⟨s, by rw [hc]⟩, List.not_mem_nil⟩
    · obtain ⟨t, u, rfl, ht, hu⟩ := ih
      exact ⟨t, u ++ [c], by simp, ht, by simpa [hu] using Ne.symm hc⟩

/-- A character that ends no line stands in front of the line that comes behind it. -/
theorem lines_cons (hn : c ≠ '\n') (hr : c = '\r' → s.head? ≠ some '\n') :
    lines (c :: s) = match lines s with
      | [] => [[c]]
      | l :: ls => (c :: l) :: ls := by
  have hreturn : ∀ t, c = '\r' → s = '\n' :: t → False := by
    rintro t rfl rfl
    exact hr rfl rfl
  cases hs : lines s with
  | nil => rw [lines, hs] <;> assumption
  | cons l ls => rw [lines, hs] <;> assumption

/-- The lines behind a newline are those of the text there; in front of it there are as many as newlines. -/
theorem lines_newline : ∀ t s : List Char, lines (t ++ '\n' :: s) = lines (t ++ ['\n']) ++ lines s ∧
    (lines (t ++ ['\n'])).length = t.count '\n' + 1
  | [], s => by simp [lines]
  | c :: t, s => by
    obtain ⟨happend, hlength⟩ := lines_newline t s
    by_cases hn : c = '\n'
    · subst hn
      simp [lines, happend, hlength]
    · have hcount : (c :: t).count '\n' = t.count '\n' := List.count_cons_of_ne hn
      by_cases hr : c = '\r' ∧ (t ++ ['\n']).head? = some '\n'
      · -- The newline behind the carriage return is in the text or is the one that ends it.
        obtain ⟨rfl, hhead⟩ := hr
        cases t with
        | nil => simp [lines]
        | cons d t =>
          obtain rfl : d = '\n' := by simpa using hhead
          obtain ⟨happend, hlength⟩ := lines_newline t s
          simp [lines, happend, hlength]
      · have hhead : (t ++ '\n' :: s).head? = (t ++ ['\n']).head? := by cases t <;> rfl
        obtain ⟨l, ls, hlines⟩ := List.exists_cons_of_length_eq_add_one hlength
        rw [hlines] at happend hlength
        rw [List.cons_append, List.cons_append, lines_cons hn fun h h' => hr ⟨h, hhead ▸ h'⟩,
          lines_cons hn fun h h' => hr ⟨h, h'⟩, happend, hlines, hcount]
        exact ⟨rfl, hlength⟩

theorem lines_ended (ht : Ended t) (s : List Char) :
    lines (t ++ s) = lines t ++ lines s ∧ (lines t).length = t.count '\n' := by
  rcases ht with rfl | ⟨t, rfl⟩
  · exact ⟨rfl, rfl⟩
  · obtain ⟨happend, hlength⟩ := lines_newline t s
    exact ⟨by rw [List.append_assoc]; exact happend, by simpa using hlength⟩

/-- A text begins with its first line, if it has one. -/
theorem exists_lines (s : List Char) : lines s = [] ∨ ∃ l ls, lines s = l :: ls ∧ l <+: s ∧ '\n' ∉ l := by
  fun_induction lines s with
  | case1 => exact .inl rfl
  | case2 s => exact .inr ⟨[], lines s, rfl, List.nil_prefix, List.not_mem_nil⟩
  | case3 s => exact .inr ⟨[], lines s, rfl, List.nil_prefix, List.not_mem_nil⟩
  | case4 c s hn => exact .inr ⟨[c], [], rfl, by simp, by simpa using Ne.symm hn⟩
  | case5 c s hn hr l ls hlines ih =>
    rcases ih with ih | ⟨l', ls', ih, hl, hnewline⟩
    · rw [hlines] at ih
      cases ih
    · rw [hlines] at ih
      cases ih
      exact .inr ⟨c :: l, ls, rfl, List.cons_prefix_cons.mpr ⟨rfl, hl⟩, by simpa [hnewline] using Ne.symm hn⟩

/-- A text without newlines is all on one line, if no newline makes its end a line ending. -/
theorem lines_unbroken (s : List Char) : ∀ {v : List Char}, v ≠ [] → '\n' ∉ v → v.getLast? ≠ some '\r' →
    ∃ w ls, lines (v ++ s) = (v ++ w) :: ls ∧ w <+: s ∧ '\n' ∉ w
  | [], hne, _, _ => absurd rfl hne
  | [c], _, hn, hr => by
    have hline : lines (c :: s) = _ :=
      lines_cons (Ne.symm (List.mem_singleton.not.mp hn)) fun hc => absurd (congrArg some hc) hr
    rw [List.singleton_append, hline]
    rcases exists_lines s with hs | ⟨w, ls, hs, hw, hnewline⟩
    · exact ⟨[], [], by rw [hs]; rfl, List.nil_prefix, List.not_mem_nil⟩
    · exact ⟨w, ls, by rw [hs]; rfl, hw, hnewline⟩
  | c :: d :: v, _, hn, hr => by
    obtain ⟨hc, hn⟩ := not_or.mp (List.mem_cons.not.mp hn)
    obtain ⟨w, ls, hlines, hw⟩ := lines_unbroken s (List.cons_ne_nil d v) hn (by rwa [List.getLast?_cons_cons] at hr)
    have hd : d ≠ '\n' := fun hd => hn (hd ▸ List.mem_cons_self)
    refine ⟨w, ls, ?_, hw⟩
    rw [List.cons_append, lines_cons (Ne.symm hc) fun _ h => hd (by simpa using h), hlines]
    rfl

/-- A part of a text stands on the line that the newlines in front of it tell. -/
theorem line?_part (hne : v ≠ []) (hv : ∀ c ∈ v, c ≠ '\n' ∧ c ≠ '\r') (t w : List Char) : ∃ before behind,
    line? (t ++ (v ++ w)) (t.count '\n' + 1) = some (before ++ v ++ behind) ∧ before <:+ t ∧ behind <+: w := by
  obtain ⟨ended, before, rfl, hended, hbefore⟩ := exists_ended t
  have hnewline : '\n' ∉ before ++ v := fun h =>
    (List.mem_append.mp h).elim hbefore fun h => (hv _ h).1 rfl
  have hlast : (before ++ v).getLast? ≠ some '\r' := by
    rw [List.getLast?_append, List.getLast?_eq_some_getLast hne]
    exact fun h => (hv _ (List.getLast_mem hne)).2 (Option.some.inj h)
  obtain ⟨behind, ls, hlines, hbehind, -⟩ :=
    lines_unbroken w (List.append_ne_nil_of_right_ne_nil before hne) hnewline hlast
  obtain ⟨happend, hlength⟩ := lines_ended hended (before ++ (v ++ w))
  refine ⟨before, behind, ?_, List.suffix_append ended before, hbehind⟩
  rw [line?, List.append_assoc, happend, List.count_append, List.count_eq_zero_of_not_mem hbefore,
    Nat.add_zero, ← hlength, List.getElem?_append_right (Nat.le_refl _), Nat.sub_self, ← List.append_assoc, hlines]
  rfl

end FoolLang.Text
