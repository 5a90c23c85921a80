/-
What can be said of a program because it was read from a text: the end mark is only the last of the
tokens, so the program derives from the others, and every type that is written in it is one of values.
-/
import FoolLang.Compile
import FoolLang.Proofs.Grammar.Programs
import FoolLang.Proofs.Static.Checked
import FoolLang.Proofs.Token.Accounts

namespace FoolLang

/-! ## Tokens of a text -/

/-- The end mark of a text is the last of its tokens and no other. -/
theorem Token.scan_eof (s : List Char) (line : UInt32) : ∀ ts, scan s line = .ok ts →
    ∃ front last, ts = front ++ [atEnd last] ∧ ∀ t ∈ front, t.kind ≠ .eof := by
  intro ts h
  obtain ⟨parts, gap, -, haccount, -, rfl⟩ := scan_eq_ok.mp h
  refine ⟨parts.map (·.2), _, rfl, List.forall_mem_map.mpr fun x hx => ?_⟩
  obtain ⟨front, back, rfl⟩ := List.append_of_mem hx
  obtain ⟨-, htoken, -⟩ := haccount front x.1 x.2 back rfl
  exact htoken.ne_eof

/-! ## Types as they are written -/

namespace Phrases

variable {ws : List Token}

theorem IsType.isValue {t : Token} {type : Ty} (h : IsType t type) : type.isValue = true := by
  cases h <;> rfl

theorem IsFormal.isValue {f : Formal} (h : IsFormal ws f) : f.type.isValue = true := by
  cases h with
  | intro _ _ ht => exact ht.isValue

theorem IsHeader.valued {h : Header} (hh : IsHeader ws h) : Formal.Valued h.params := by
  cases hh with
  | intro _ _ _ _ list =>
    intro f hf
    obtain ⟨_, hf, -⟩ := list.exists_item f hf
    exact hf.isValue

/-- What a derivation of declarations says of their types. -/
def DeclPhrase.Valued : DeclPhrase → Prop
  | .decl d => d.Valued
  | .decls ds | .locals ds => Decl.ValuedAll ds

theorem DeclDerives.valued {ph : DeclPhrase} (h : DeclDerives ws ph) : ph.Valued := by
  induction h with
  | var _ _ _ ht _ _ _ => exact ht.isValue
  | function hh _ _ _ ih => exact ⟨hh.valued, ih⟩
  | nil | noLocals => exact trivial
  | cons _ _ ihd ihds => exact ⟨ihd, ihds⟩
  | locals _ _ _ ih => exact ih

theorem IsMethod.valued {m : Method} (h : IsMethod ws m) : m.Valued := by
  cases h with
  | intro hh hl _ _ => exact ⟨hh.valued, hl.valued⟩

theorem IsClass.valued {c : ClassDecl} (h : IsClass ws c) : c.Valued := by
  cases h with
  | intro _ _ hf _ hm _ =>
    refine ⟨fun f hmem => ?_, fun m hmem => ?_⟩
    · obtain ⟨_, hf, -⟩ := hf.exists_item f hmem
      exact hf.isValue
    · obtain ⟨_, hm, -⟩ := hm.exists_item m hmem
      exact hm.valued

theorem IsProgram.valued {p : Program} (h : IsProgram ws p) : p.Valued := by
  cases h with
  | expr => exact ⟨fun _ hc => (List.not_mem_nil hc).elim, trivial⟩
  | letIn _ hc hd _ _ _ _ =>
    refine ⟨fun c hmem => ?_, (derives_decls hd).valued⟩
    obtain ⟨_, hc, -⟩ := hc.exists_item c hmem
    exact hc.valued

end Phrases

/-- Every type written in a text is one of values. -/
theorem Program.ofSource_valued {source : String} {p : Program} (h : ofSource source = .ok p) : p.Valued := by
  unfold ofSource at h
  cases hts : Token.ofSource source with
  | error d => rw [hts] at h; cases h
  | ok ts =>
    obtain ⟨front, last, rfl, hfront⟩ := Token.scan_eof _ _ ts hts
    rw [hts] at h
    simp only [bind, Except.bind] at h
    split at h
    · rename_i q c hq
      cases h
      exact (Phrases.isProgram_of_ofTokens hfront rfl hq).valued
    · cases h

/-! ## Compiled programs -/

/-- The tree of a text is that of its tokens. -/
theorem Program.ofSource_of_tokens {source : String} {ts : List Token} {p : Program} {c : Cursor}
    (hts : Token.ofSource source = .ok ts) (hp : Program.ofTokens ts = .ok p c) : Program.ofSource source = .ok p := by
  unfold Program.ofSource
  rw [hts]
  simp only [bind, Except.bind, hp]
  rfl

/-- The code of a program without problems is what the program is lowered to. -/
theorem compile_of_ofSource {source : String} {p : Program} (hp : Program.ofSource source = .ok p)
    (hnone : p.resolve.2.problems ++ p.resolve.1.typeProblems = []) :
    compile source = p.resolve.1.lower.mapError ([·]) := by
  unfold compile
  rw [hp]
  simp only [Except.mapError, bind, Except.bind, hnone]

/-- A text compiles if its program has no problems, and its code is what the resolved program is lowered to. -/
theorem compile_accepted {source : String} {code : List Machine.Instruction} (h : compile source = .ok code) :
    ∃ p, Program.ofSource source = .ok p ∧ p.resolve.2.problems = [] ∧ p.resolve.1.typeProblems = [] ∧
      p.resolve.1.lower = .ok code := by
  unfold compile at h
  cases hp : Program.ofSource source with
  | error d => rw [hp] at h; cases h
  | ok p =>
    rw [hp] at h
    simp only [Except.mapError, bind, Except.bind] at h
    split at h
    · rename_i hnone
      obtain ⟨hs, ht⟩ := List.append_eq_nil_iff.mp hnone
      refine ⟨p, rfl, hs, ht, ?_⟩
      cases hlower : p.resolve.1.lower with
      | ok code' => rw [hlower] at h; cases h; rfl
      | error d => rw [hlower] at h; cases h
    · cases h

/-- A text that compiles is that of a sound program, and its code is what this is lowered to. -/
theorem compile_ok {source : String} {code : List Machine.Instruction} (h : compile source = .ok code) :
    ∃ p, Program.ofSource source = .ok p ∧ p.resolve.1.Sound ∧ p.resolve.1.lower = .ok code := by
  obtain ⟨p, hp, hs, ht, hcode⟩ := compile_accepted h
  exact ⟨p, hp, p.resolve_sound (Program.ofSource_valued hp) hs ht, hcode⟩

end FoolLang
