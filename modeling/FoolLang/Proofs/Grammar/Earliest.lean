/-
A token that does not fit is reported at once. Reading a program depends on no token behind the one that it stops at,
and where it stops because that token does not fit, the tokens in front of it begin a program.
-/
import FoolLang.Proofs.Grammar.Completions
import FoolLang.Proofs.Grammar.Termination

namespace FoolLang

open Reading

/-- A problem that is about a token, with its text and its line. -/
def Diagnostic.Refuses (d : Diagnostic) (t : Token) : Prop :=
  d = ⟨.unexpectedToken t.value, t.line⟩ ∨ ∃ expected, d = ⟨.unexpectedTokenDetailed t.value expected, t.line⟩

/-- Problems with a token that does not fit are about the one that reading stops at. -/
theorem Reading.Blames.refuses {ws : List Token} {t : Token} {d : Diagnostic} (h : Blames ws t d) (hd : d.Unexpected) :
    d.Refuses t := by
  cases h with
  | token => exact .inl rfl
  | detailed expected => exact .inr ⟨expected, rfl⟩
  | number => obtain ⟨_, h | ⟨_, h⟩⟩ := hd <;> cases h

/-- A place in a token list that has some tokens in front of it. -/
theorem Cursor.exists_ofTokens {ts ws : List Token} {c : Cursor} (h : Token.withEnd ts = ws ++ c.tokens) :
    ∃ eof us, eof.kind = .eof ∧ c = before eof us ∧ ofTokens ts = before eof (ws ++ us) := by
  obtain ⟨eof, us, he, rfl⟩ := exists_before h
  refine ⟨eof, us, he, rfl, tokens_inj ?_⟩
  rw [ofTokens_tokens, h, before_tokens, before_tokens, List.append_assoc]

namespace Program

/--
Reading a program from some tokens ends behind some of them, at the token that comes next, with a program or a problem.
There is an end behind the tokens unless the last one is an end itself.
-/
def EndsAt (ts ws : List Token) (t : Token) (o : Except Diagnostic Program) : Prop :=
  ∃ rest, ofTokens ts = ended o ⟨t, rest⟩ ∧ Token.withEnd ts = ws ++ t :: rest

/--
A token that does not fit is reported at once. From every token list reading ends at one token, behind no end of the
program, and from every list with the same tokens up to this one it ends there just the same. Where it ends with a
problem with a token that does not fit, the problem is about this token, and the tokens in front of it can be
completed to a program.
-/
theorem ofTokens_earliest (ts : List Token) : ∃ ws t o, EndsAt ts ws t o ∧ (∀ u ∈ ws, u.kind ≠ .eof) ∧
    (∀ us, ws ++ [t] <+: Token.withEnd us → EndsAt us ws t o) ∧
    ∀ d, o = .error d → d.Unexpected → d.Refuses t ∧ ∃ vs p c, ofTokens (ws ++ vs) = .ok p c := by
  have hfirst : Token.withEnd ts = [] ++ (Cursor.ofTokens ts).tokens := (Cursor.ofTokens_tokens ts).symm
  obtain ⟨eof, vs, he, -, hstart⟩ := Cursor.exists_ofTokens hfirst
  rw [List.nil_append] at hstart
  obtain ⟨o, ws, us, hstop⟩ := Grammar.program_stops (L := .free) he vs (Nat.lt_succ_self vs.length)
  -- Up to the token where it stops another list is the same place with other tokens behind, where the reading runs
  -- alike.
  have hends : ∀ us', ws ++ [(Cursor.before eof us).current] <+: Token.withEnd us' →
      EndsAt us' ws (Cursor.before eof us).current o := by
    rintro us' ⟨rest, hrest⟩
    have hplace : Token.withEnd us' = ws ++ (Cursor.mk (Cursor.before eof us).current rest).tokens := by
      rw [← hrest, List.append_assoc]
      rfl
    obtain ⟨eof', vs', he', hc, hstart'⟩ := Cursor.exists_ofTokens hplace
    refine ⟨rest, ?_, hplace⟩
    rw [ofTokens, hstart', hc]
    exact hstop.run (i := ()) he' (by rw [← hc]) trivial
  refine ⟨ws, (Cursor.before eof us).current, o, hends ts ?_, hstop.not_end, hends, ?_⟩
  · refine ⟨(Cursor.before eof us).rest, ?_⟩
    rw [← Cursor.ofTokens_tokens, hstart, hstop.split, List.append_assoc]
    show ws ++ (Cursor.before eof us).tokens = _
    rw [Cursor.before_tokens, Cursor.before_tokens, List.append_assoc]
  · rintro d rfl hd
    refine ⟨(hstop.blames d rfl).refuses hd, ?_⟩
    have hrun := hstop.run (i := ()) he rfl trivial
    rw [← hstop.split] at hrun
    obtain ⟨ws', us', hsplit, hc, more, p, hp⟩ := (Phrases.program_viable he).begins trivial hrun hd
    obtain rfl := Cursor.before_inj hc
    obtain rfl := List.append_cancel_right (hstop.split.symm.trans hsplit)
    have hdone : ofTokens (ws ++ more ++ [.atEnd 1]) = .ok p ⟨.atEnd 1, []⟩ := Phrases.ofTokens_of_isProgram rfl hp
    rw [List.append_assoc] at hdone
    exact ⟨_, p, _, hdone⟩

example : EndsAt [⟨.not, "!", 3⟩] [⟨.not, "!", 3⟩] (.atEnd 3) (.error ⟨.unexpectedToken "EOF", 3⟩) := ⟨[], rfl, rfl⟩

end Program

end FoolLang
