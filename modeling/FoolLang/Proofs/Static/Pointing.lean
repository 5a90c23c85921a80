/-
What is reported of a text points at it. The line of a problem, as far as 32 bits count, is a line of the text, and a
token begins there, or the character where reading stopped; a problem with a token is shown the line that has the text
of this token. Only where the tokens end too early there may be no such line.
-/
import FoolLang.Proofs.Grammar.Earliest
import FoolLang.Proofs.Grammar.Lines
import FoolLang.Proofs.Static.Phases
import FoolLang.Proofs.Text.Lines
import FoolLang.Proofs.Token.Accounts

namespace FoolLang

open Token

variable {s front v : List Char}

/-! ## Tokens in a text -/

theorem not_break_of_not_isBlank {c : Char} (h : Text.isBlank c = false) : c ≠ '\n' ∧ c ≠ '\r' := by
  constructor <;> rintro rfl <;> cases h

namespace Token

/--
Where something stands in a text, with what is in front of it: a token of the text, or where reading stops for it the
character that no token begins with.
-/
inductive StandsIn (s : List Char) : List Char → List Char → Prop
  | token {front back : List (List Char × Token)} {g gap : List Char} {t : Token}
    (hs : s = spread (front ++ (g, t) :: back) ++ gap) (haccount : Account 1 (front ++ (g, t) :: back) gap)
    (hgap : Gap [] gap) : StandsIn s (spread front ++ g) t.value.toList
  | nothing {parts : List (List Char × Token)} {gap rest : List Char} {c : Char}
    (hs : s = spread parts ++ (gap ++ c :: rest)) (haccount : Account 1 parts (gap ++ c :: rest))
    (hgap : Gap (c :: rest) gap) (hnothing : BeginsNothing (c :: rest)) : StandsIn s (spread parts ++ gap) [c]

/-- What stands in a text is a part of it, and no blank is in it. -/
theorem StandsIn.solid (h : StandsIn s front v) :
    (∃ back, s = front ++ (v ++ back)) ∧ v ≠ [] ∧ ∀ c ∈ v, Text.isBlank c = false := by
  cases h with
  | @token front back g gap t hs haccount hgap =>
    obtain ⟨-, htoken, -⟩ := haccount front g t back rfl
    refine ⟨⟨spread back ++ gap, ?_⟩, htoken.solid⟩
    rw [hs, spread, List.flatMap_append]
    simp [spread]
  | @nothing parts gap rest c hs haccount hgap hnothing =>
    exact ⟨⟨rest, by rw [hs, List.append_assoc]; rfl⟩, List.cons_ne_nil c [],
      List.forall_mem_singleton.mpr (hnothing.blank c rfl)⟩

/-- The tokens of a text, each of which stands in it on its line, and the end. -/
theorem exists_standsIn {ts : List Token} (h : scan s 1 = .ok ts) :
    ∃ words last, ts = words ++ [last] ∧ last.kind = .eof ∧ ∀ t ∈ words, t.kind ≠ .eof ∧
      ∃ front, StandsIn s front t.value.toList ∧ t.line = (1 + front.count '\n') % UInt32.size := by
  obtain ⟨parts, gap, hs, haccount, hgap, rfl⟩ := scan_eq_ok.mp h
  refine ⟨parts.map (·.2), atEnd _, rfl, rfl, fun t ht => ?_⟩
  obtain ⟨⟨g, t⟩, hpart, rfl⟩ := List.mem_map.mp ht
  obtain ⟨front, back, rfl⟩ := List.append_of_mem hpart
  obtain ⟨-, htoken, hline⟩ := haccount front g t back rfl
  exact ⟨htoken.ne_eof, spread front ++ g, .token hs haccount hgap, hline⟩

end Token

/-- The token that a problem of reading is with. -/
def Cause.token? : Cause → Option String
  | .unrecognisedToken token | .unexpectedToken token | .unexpectedTokenDetailed token _ => some token
  | _ => none

theorem Cause.token?_eq_none {c : Cause} (h : c.phase ≠ .reading) : c.token? = none := by
  cases c <;> first | rfl | exact absurd rfl h

/--
A problem with a number is about one of the tokens, and one with a token that does not fit about that token or the
end.
-/
theorem Program.ofTokens_blames {words : List Token} {last : Token} {d : Diagnostic} {c : Cursor}
    (hl : last.kind = .eof) (h : ofTokens (words ++ [last]) = .error d c) : d.Unexpected ∧ c.current.kind = .eof ∨
      ∃ t ∈ words, d.line = t.line ∧ ∀ token, d.cause.token? = some token → token = t.value := by
  obtain ⟨o, ws, us, hstop⟩ := Grammar.program_stops (L := .free) hl words (Nat.lt_succ_self words.length)
  have hrun := hstop.run (i := ()) hl rfl trivial
  rw [← hstop.split, ← Cursor.ofTokens_append words hl] at hrun
  have hended : Reading.ended o (.before last us) = Reading.ended (.error d) c := hrun.symm.trans h
  obtain ⟨rfl, rfl⟩ := Reading.ended_inj hended
  -- The token that stops it is the end behind all words or the first of those that are left.
  have hstops : us = [] ∨ (Cursor.before last us).current ∈ words := by
    rw [hstop.split]
    cases us with
    | nil => exact .inl rfl
    | cons t us => exact .inr (List.mem_append_right _ List.mem_cons_self)
  cases hstop.blames d rfl with
  | token =>
    rcases hstops with rfl | ht
    · exact .inl ⟨⟨_, .inl rfl⟩, hl⟩
    · exact .inr ⟨_, ht, rfl, fun _ htoken => (Option.some.inj htoken).symm⟩
  | detailed expected =>
    rcases hstops with rfl | ht
    · exact .inl ⟨⟨_, .inr ⟨_, rfl⟩⟩, hl⟩
    · exact .inr ⟨_, ht, rfl, fun _ htoken => (Option.some.inj htoken).symm⟩
  | @number t text ht _ =>
    exact .inr ⟨t, hstop.split ▸ List.mem_append_left us ht, rfl, fun _ htoken => by cases htoken⟩

namespace Diagnostic

/--
A problem points at something that stands in a text. Its line is the one where this begins, as the newlines in front
of it tell, counted in 32 bits. Up to the last line that 32 bits can count, the text has this line, and shows on it
what stands there behind what is before it on the line. The token that the problem is with, if it is with one, is what
stands there.
-/
structure PointsAt (d : Diagnostic) (s front v : List Char) : Prop where
  stands : Token.StandsIn s front v
  line : d.line = (1 + front.count '\n') % UInt32.size
  shown : 1 + front.count '\n' < UInt32.size → ∃ before behind back, s = front ++ (v ++ back) ∧
    Text.line? s d.line = some (before ++ v ++ behind) ∧ before <:+ front ∧ behind <+: back
  named : ∀ token, d.cause.token? = some token → token = String.ofList v

/-- The tokens of a text end where reading expects one more. -/
def AtEnd (d : Diagnostic) (source : String) : Prop :=
  d.Unexpected ∧ ∃ ts c, Token.ofSource source = .ok ts ∧ Program.ofTokens ts = .error d c ∧ c.current.kind = .eof

variable {d : Diagnostic} {source : String}

theorem PointsAt.of_standsIn (h : Token.StandsIn s front v) (hl : d.line = (1 + front.count '\n') % UInt32.size)
    (hnamed : ∀ token, d.cause.token? = some token → token = String.ofList v) : d.PointsAt s front v := by
  obtain ⟨⟨back, hs⟩, hne, hv⟩ := h.solid
  obtain ⟨before, behind, hline, hbefore, hbehind⟩ :=
    Text.line?_part hne (fun c hc => not_break_of_not_isBlank (hv c hc)) front back
  refine ⟨h, hl, fun hlt => ⟨before, behind, back, hs, ?_, hbefore, hbehind⟩, hnamed⟩
  rw [hl, Nat.mod_eq_of_lt hlt, Nat.add_comm, hs, hline]

/-- A problem on the line of a token, and with no other token, points at it. -/
theorem PointsAt.of_token {t : Token}
    (ht : ∃ front, Token.StandsIn s front t.value.toList ∧ t.line = (1 + front.count '\n') % UInt32.size)
    (hl : d.line = t.line) (hnamed : ∀ token, d.cause.token? = some token → token = t.value) :
    ∃ front v, d.PointsAt s front v := by
  obtain ⟨front, hstands, hline⟩ := ht
  exact ⟨front, _, .of_standsIn hstands (hl.trans hline) fun token h => by rw [String.ofList_toList, hnamed token h]⟩

end Diagnostic

theorem Token.scan_error_points {d : Diagnostic} (h : scan s 1 = .error d) : ∃ front v, d.PointsAt s front v := by
  obtain ⟨parts, gap, c, rest, hs, haccount, hgap, hnothing, rfl⟩ := scan_eq_error.mp h
  refine ⟨spread parts ++ gap, [c], .of_standsIn (.nothing hs haccount hgap hnothing) rfl fun token h => ?_⟩
  cases h
  rfl

theorem Program.ofSource_cases (source : String) :
    (∃ d, Token.ofSource source = .error d ∧ ofSource source = .error d) ∨
      ∃ ts, Token.ofSource source = .ok ts ∧ ((∃ d c, ofTokens ts = .error d c ∧ ofSource source = .error d) ∨
        ∃ p c, ofTokens ts = .ok p c ∧ ofSource source = .ok p) := by
  unfold ofSource
  cases Token.ofSource source with
  | error d => exact .inl ⟨d, rfl, rfl⟩
  | ok ts =>
    refine .inr ⟨ts, rfl, ?_⟩
    simp only [bind, Except.bind]
    cases ofTokens ts with
    | error d c => exact .inl ⟨d, c, rfl, rfl⟩
    | ok p c => exact .inr ⟨p, c, rfl, rfl⟩

/-- What is reported of a text was found by reading, or by resolution and typing of what was read. -/
theorem compile_error {source : String} {ds : List Diagnostic} (h : compile source = .error ds) :
    (∃ d, Program.ofSource source = .error d ∧ ds = [d]) ∨
      ∃ p, Program.ofSource source = .ok p ∧ ds = p.resolve.2.problems ++ p.resolve.1.typeProblems := by
  unfold compile at h
  cases hp : Program.ofSource source with
  | error d =>
    rw [hp] at h
    cases h
    exact .inl ⟨d, rfl, rfl⟩
  | ok p =>
    rw [hp] at h
    simp only [Except.mapError, bind, Except.bind] at h
    split at h
    · rename_i hnone
      have hd := (p.resolve_resolved (List.append_eq_nil_iff.mp hnone).1).decorated
      obtain ⟨code, hcode⟩ := p.resolve.1.exists_lower_iff.mpr hd
      rw [hcode] at h
      cases h
    · cases h
      exact .inr ⟨p, rfl, rfl⟩

/--
Diagnostics point at the text that they are about. Each problem that is reported of a text points at a token of the
text, or at the character where reading stopped because no token begins with it; only where the tokens end too early,
the problem is with their end instead. A text shows the line of each problem, up to the last line that 32 bits can
count.
-/
theorem compile_points {source : String} {ds : List Diagnostic} (h : compile source = .error ds) :
    ∀ d ∈ ds, ¬ d.AtEnd source → ∃ front v, d.PointsAt source.toList front v := by
  rcases compile_error h with ⟨d, hd, rfl⟩ | ⟨p, hp, rfl⟩
  · refine List.forall_mem_singleton.mpr fun hend => ?_
    rcases Program.ofSource_cases source with ⟨d', hd', hs⟩ | ⟨ts, hts, ⟨d', c, hc, hs⟩ | ⟨p, c, hc, hs⟩⟩ <;>
      rw [hs] at hd <;> cases hd
    · exact Token.scan_error_points hd'
    · obtain ⟨words, last, rfl, hlast, hwords⟩ := Token.exists_standsIn hts
      rcases Program.ofTokens_blames hlast hc with ⟨hun, heof⟩ | ⟨t, ht, hl, hnamed⟩
      · exact absurd ⟨hun, _, c, hts, hc, heof⟩ hend
      · exact Diagnostic.PointsAt.of_token (hwords t ht).2 hl hnamed
  · intro d hd _
    rcases Program.ofSource_cases source with ⟨d', -, hs⟩ | ⟨ts, hts, ⟨d', c, -, hs⟩ | ⟨p', c, hc, hs⟩⟩ <;>
      rw [hs] at hp <;> cases hp
    obtain ⟨words, last, rfl, hlast, hwords⟩ := Token.exists_standsIn hts
    have hprogram := Phrases.isProgram_of_ofTokens (fun t ht => (hwords t ht).1) hlast hc
    have hlines : ∀ l ∈ p.lines, ∃ t ∈ words, l = t.line := hprogram.lines fun t ht => ⟨t, ht, rfl⟩
    -- Later phases name no token and keep to the lines in the tree, which reading took from the tokens.
    obtain ⟨hline, hphase⟩ : d.line ∈ p.lines ∧ d.phase ≠ .reading := by
      rcases List.mem_append.mp hd with hd | hd
      · exact ⟨p.resolve_line d hd, by rw [p.resolve_phase d hd]; decide⟩
      · exact ⟨p.lines_resolve ▸ p.resolve.1.typeProblems_line d hd,
          by rw [Program.typeProblems_phase _ d hd]; decide⟩
    obtain ⟨t, ht, hl⟩ := hlines _ hline
    refine Diagnostic.PointsAt.of_token (hwords t ht).2 hl fun token htoken => ?_
    rw [Cause.token?_eq_none hphase] at htoken
    cases htoken

theorem compile_points_operand : let d : Diagnostic := ⟨.unexpectedToken "in", 3⟩
    compile "1 +/*\n*/\r\nin;" = .error [d] ∧ ¬ d.AtEnd "1 +/*\n*/\r\nin;" ∧
      ∃ front v, d.PointsAt "1 +/*\n*/\r\nin;".toList front v ∧
        ∃ before behind, Text.line? "1 +/*\n*/\r\nin;".toList 3 = some (before ++ v ++ behind) := by
  intro d
  have hc : compile "1 +/*\n*/\r\nin;" = .error [d] := by decide +kernel
  have hend : ¬ d.AtEnd "1 +/*\n*/\r\nin;" := by
    rintro ⟨-, ts, c, hts, hstop, heof⟩
    have htokens : Token.ofSource "1 +/*\n*/\r\nin;" = .ok [⟨.number, "1", 1⟩, ⟨.plus, "+", 1⟩, ⟨.kwIn, "in", 3⟩,
        ⟨.semicolon, ";", 3⟩, atEnd 3] := by decide +kernel
    rw [htokens] at hts
    cases hts
    cases hstop
    cases heof
  obtain ⟨front, v, hpoints⟩ := compile_points hc d (List.mem_singleton_self d) hend
  obtain ⟨⟨back, hs⟩, -⟩ := hpoints.stands.solid
  have hcount : front.count '\n' ≤ 2 := calc
    front.count '\n' ≤ (front ++ (v ++ back)).count '\n' := by rw [List.count_append]; exact Nat.le_add_right _ _
    _ = 2 := by rw [← hs]; decide
  have hlt : 1 + front.count '\n' < UInt32.size := Nat.lt_of_le_of_lt (Nat.add_le_add_left hcount 1) (by decide)
  obtain ⟨before, behind, -, -, hline, -⟩ := hpoints.shown hlt
  exact ⟨hc, hend, front, v, hpoints, before, behind, hline⟩

end FoolLang
