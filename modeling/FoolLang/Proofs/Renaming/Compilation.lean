/-
Compilation of renamed texts. Two texts whose tokens are renamed into one another, on whatever lines they stand,
are read as renamed programs, which are resolved, typed and lowered alike: they compile to the same code, or are
refused for the same reasons but for the names.
-/
import FoolLang.Proofs.Renaming.Lowering
import FoolLang.Proofs.Renaming.Reading
import FoolLang.Proofs.Renaming.Resolution
import FoolLang.Proofs.Renaming.Typing
import FoolLang.Proofs.Static.Phases
import Mathlib.Logic.Equiv.Basic

namespace FoolLang

variable {ρ : Renaming}

/-! ## From texts to trees -/

theorem Token.Renamed.atEnd (l l' : Nat) : (Token.atEnd l).Renamed ρ (Token.atEnd l') := ⟨rfl, rfl⟩

theorem Cursor.Renamed.closed {ts ts' : List Token} (hts : List.Forall₂ (Token.Renamed ρ) ts ts') :
    ∀ {t t' : Token}, t.Renamed ρ t' → List.Forall₂ (Token.Renamed ρ) (Cursor.closed t ts) (Cursor.closed t' ts') := by
  induction hts with
  | nil =>
    intro t t' ht
    rw [Cursor.closed, Cursor.closed, ht.kind]
    split
    · exact .nil
    · exact .cons (.atEnd _ _) .nil
  | cons hu _ ih => exact fun _ => .cons hu (ih hu)

theorem Cursor.Renamed.ofTokens {ts ts' : List Token} (h : List.Forall₂ (Token.Renamed ρ) ts ts') :
    (Cursor.ofTokens ts).Renamed ρ (Cursor.ofTokens ts') := by
  cases h with
  | nil => exact ⟨.atEnd 1 1, .nil⟩
  | cons ht hts => exact ⟨ht, closed hts ht⟩

/-- Texts of renamed tokens are read as renamed programs, or refused for the same reason. -/
theorem Program.ofSource_renamed {source source' : String} {ts ts' : List Token} (hs : Token.ofSource source = .ok ts)
    (hs' : Token.ofSource source' = .ok ts') (h : List.Forall₂ (Token.Renamed ρ) ts ts') :
    SameOutcome (Diagnostic.Renamed ρ) (Program.Renamed ρ) (ofSource source) (ofSource source') := by
  have hread := Grammar.program_renamed _ _ (Cursor.Renamed.ofTokens h)
  simp only [ofSource, hs, hs', bind, Except.bind, Program.ofTokens]
  generalize Grammar.standard.program.run (.ofTokens ts) = o, Grammar.standard.program.run (.ofTokens ts') = o' at hread
  cases hread with
  | ok hp _ => exact .ok hp
  | error hd => exact .error hd

/-! ## Compilation -/

/-- A program of which nothing is wrong is lowered. -/
theorem Program.exists_lower {p : Program} (h : p.resolve.2.problems ++ p.resolve.1.typeProblems = []) :
    ∃ code, p.resolve.1.lower = .ok code :=
  p.resolve.1.exists_lower_iff.mpr (p.resolve_resolved (List.append_eq_nil_iff.mp h).1).decorated

/-- Texts of renamed tokens compile to the same code, or are refused for the same reasons but for the names. -/
theorem compile_sameOutcome {source source' : String} {ts ts' : List Token} (hs : Token.ofSource source = .ok ts)
    (hs' : Token.ofSource source' = .ok ts') (h : List.Forall₂ (Token.Renamed ρ) ts ts') :
    SameOutcome (List.Forall₂ (Diagnostic.Renamed ρ)) (· = ·) (compile source) (compile source') := by
  have hread := Program.ofSource_renamed hs hs' h
  unfold compile
  generalize Program.ofSource source = o, Program.ofSource source' = o' at hread
  cases hread with
  | error hd => exact .error (.cons hd .nil)
  | @ok p p' hp =>
    obtain ⟨htree, hscope⟩ := hp.resolve
    have hproblems : List.Forall₂ (Diagnostic.Renamed ρ) (p.resolve.2.problems ++ p.resolve.1.typeProblems)
        (p'.resolve.2.problems ++ p'.resolve.1.typeProblems) := List.rel_append hscope.problems htree.typeProblems
    simp only [Except.mapError, bind, Except.bind]
    -- As many problems are found in both programs, so nothing is wrong with the one just if nothing is with the other.
    by_cases hnone : p.resolve.2.problems ++ p.resolve.1.typeProblems = []
    · obtain ⟨code, hcode⟩ := Program.exists_lower hnone
      rw [hnone, List.forall₂_nil_left_iff] at hproblems
      rw [hnone, hproblems, hcode, htree.lower hcode]
      exact .ok rfl
    · generalize p.resolve.2.problems ++ p.resolve.1.typeProblems = ds,
        p'.resolve.2.problems ++ p'.resolve.1.typeProblems = ds' at hproblems hnone
      cases hproblems with
      | nil => exact absurd rfl hnone
      | cons hd hds => exact .error (.cons hd hds)

/--
Compilation depends on the shape of a text only. If the tokens of two texts agree one by one in kind, and in value but
for identifiers, which a renaming takes from the one to the other, then either both texts compile, to the same code, or
neither does, and one by one what is wrong with them is of one variant, with renamed names.
-/
theorem compile_renamed (ρ : Renaming) {source source' : String} {ts ts' : List Token}
    (hs : Token.ofSource source = .ok ts) (hs' : Token.ofSource source' = .ok ts')
    (h : List.Forall₂ (Token.Renamed ρ) ts ts') :
    (∃ code, compile source = .ok code ∧ compile source' = .ok code) ∨
    ∃ ds ds', compile source = .error ds ∧ compile source' = .error ds' ∧
      ds.map (·.cause.name) = ds'.map (·.cause.name) ∧ List.Forall₂ (Diagnostic.Renamed ρ) ds ds' := by
  have hsame := compile_sameOutcome hs hs' h
  generalize compile source = o, compile source' = o' at hsame
  cases hsame with
  | @ok code _ hcode => exact .inl ⟨code, rfl, by rw [hcode]⟩
  | @error ds ds' hds =>
    have hnames : List.Forall₂ (· = ·) (ds.map (·.cause.name)) (ds'.map (·.cause.name)) := by
      rw [List.forall₂_map_left_iff, List.forall₂_map_right_iff]
      exact hds.imp fun _ _ hd => hd.name
    rw [List.forall₂_eq_eq_eq] at hnames
    exact .inr ⟨ds, ds', rfl, rfl, hnames, hds⟩

/-- A call of a function. -/
def called : String := "let fun f:int(n:int) n; in f(7);"

/-- The same on other lines, where the function and its parameter have changed names. -/
def calledRenamed : String := "let\nfun n : int (f : int) f;\nin n(7);"

/-- The function and its parameter change names. -/
def changeNames : Renaming := ⟨{"f", "n"}, Equiv.swap "f" "n", (Equiv.swap "f" "n").injective.injOn⟩

theorem compile_renamed_changeNames : ∃ code, compile called = .ok code ∧ compile calledRenamed = .ok code := by
  have hs : Token.ofSource called = .ok
      [⟨.kwLet, "let", 1⟩, ⟨.kwFun, "fun", 1⟩, ⟨.identifier, "f", 1⟩, ⟨.colon, ":", 1⟩, ⟨.kwInt, "int", 1⟩,
        ⟨.openParen, "(", 1⟩, ⟨.identifier, "n", 1⟩, ⟨.colon, ":", 1⟩, ⟨.kwInt, "int", 1⟩, ⟨.closeParen, ")", 1⟩,
        ⟨.identifier, "n", 1⟩, ⟨.semicolon, ";", 1⟩, ⟨.kwIn, "in", 1⟩, ⟨.identifier, "f", 1⟩, ⟨.openParen, "(", 1⟩,
        ⟨.number, "7", 1⟩, ⟨.closeParen, ")", 1⟩, ⟨.semicolon, ";", 1⟩, ⟨.eof, "EOF", 1⟩] := by decide +kernel
  have hs' : Token.ofSource calledRenamed = .ok
      [⟨.kwLet, "let", 1⟩, ⟨.kwFun, "fun", 2⟩, ⟨.identifier, "n", 2⟩, ⟨.colon, ":", 2⟩, ⟨.kwInt, "int", 2⟩,
        ⟨.openParen, "(", 2⟩, ⟨.identifier, "f", 2⟩, ⟨.colon, ":", 2⟩, ⟨.kwInt, "int", 2⟩, ⟨.closeParen, ")", 2⟩,
        ⟨.identifier, "f", 2⟩, ⟨.semicolon, ";", 2⟩, ⟨.kwIn, "in", 3⟩, ⟨.identifier, "n", 3⟩, ⟨.openParen, "(", 3⟩,
        ⟨.number, "7", 3⟩, ⟨.closeParen, ")", 3⟩, ⟨.semicolon, ";", 3⟩, ⟨.eof, "EOF", 3⟩] := by decide +kernel
  have hcompiles : (compile called).isOk = true := by decide +kernel
  have hf : changeNames.Takes "f" "n" := ⟨.inl rfl, by decide⟩
  have hn : changeNames.Takes "n" "f" := ⟨.inr rfl, by decide⟩
  rcases compile_renamed changeNames hs hs' (by
    repeat' first | exact .nil | refine .cons ⟨rfl, ?_⟩ ?_ | exact rfl | exact hf | exact hn) with
    hsame | ⟨ds, -, hfails, -⟩
  · exact hsame
  · rw [hfails] at hcompiles
    cases hcompiles

end FoolLang
