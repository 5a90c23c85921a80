/-
Every node of a tree that is read carries the line of one of its tokens: whatever holds of the lines of the tokens
holds of the lines in the tree.
-/
import FoolLang.Proofs.Grammar.Programs
import FoolLang.Proofs.Scoping.Lines

namespace FoolLang

namespace Phrases

variable {P : Nat → Prop} {ws : List Token}

/-- The lines in what a derivation of the expression grammar is of. -/
def Phrase.lines : Phrase → List Nat
  | .expr _ e => e.lines
  | .items es | .arguments es => Expr.linesAll es

theorem Derives.lines {ph : Phrase} (h : Derives ws ph) (hws : ∀ t ∈ ws, P t.line) : ∀ l ∈ ph.lines, P l := by
  induction h with
  | _ => grind [Phrase.lines, Expr.lines, Expr.linesAll]

theorem IsFormal.line {f : Formal} (h : IsFormal ws f) (hws : ∀ t ∈ ws, P t.line) : P f.line := by
  cases h
  exact hws _ List.mem_cons_self

theorem IsHeader.lines {header : Header} (h : IsHeader ws header) (hws : ∀ t ∈ ws, P t.line) :
    ∀ l ∈ header.lines, P l := by
  cases h with
  | @intro k f c t ts result params _ _ _ _ list =>
    have hparams : ∀ x ∈ params, P x.line := fun x hx => by
      obtain ⟨vs, hx, hvs⟩ := list.exists_item x hx
      exact hx.line (by grind)
    grind [Header.lines]

/-- The lines in what a derivation of the grammar of declarations is of. -/
def DeclPhrase.lines : DeclPhrase → List Nat
  | .decl d => d.lines
  | .decls ds | .locals ds => Decl.linesAll ds

theorem DeclDerives.lines {ph : DeclPhrase} (h : DeclDerives ws ph) (hws : ∀ t ∈ ws, P t.line) :
    ∀ l ∈ ph.lines, P l := by
  induction h with
  | var _ _ _ _ _ hv _ =>
    have hvalue := Derives.lines (P := P) hv (by grind)
    grind [DeclPhrase.lines, Decl.lines, Phrase.lines]
  | function hh _ hb _ ih =>
    obtain ⟨hheader, hrest⟩ := List.forall_mem_append.mp hws
    obtain ⟨hlocals, hrest⟩ := List.forall_mem_append.mp hrest
    have hbody := Derives.lines hb (List.forall_mem_append.mp hrest).1
    exact List.forall_mem_append.mpr ⟨hh.lines hheader, List.forall_mem_append.mpr ⟨ih hlocals, hbody⟩⟩
  | nil | noLocals => exact fun _ hl => (List.not_mem_nil hl).elim
  | cons _ _ ih ihs =>
    obtain ⟨hfirst, hrest⟩ := List.forall_mem_append.mp hws
    exact List.forall_mem_append.mpr ⟨ih hfirst, ihs hrest⟩
  | locals _ _ _ ih => exact ih (List.forall_mem_append.mp (List.forall_mem_cons.mp hws).2).1

theorem IsMethod.lines {m : Method} (h : IsMethod ws m) (hws : ∀ t ∈ ws, P t.line) : ∀ l ∈ m.lines, P l := by
  obtain ⟨hh, hl, hb, hsemi⟩ := h
  exact DeclDerives.lines (.function hh hl hb hsemi) hws

theorem IsClass.lines {c : ClassDecl} (h : IsClass ws c) (hws : ∀ t ∈ ws, P t.line) : ∀ l ∈ c.lines, P l := by
  cases h with
  | @intro k n l r fs ms fields methods _ _ hf _ hm _ =>
    have hfields : ∀ f ∈ fields, P f.line := fun f hmem => by
      obtain ⟨vs, hf, hvs⟩ := hf.exists_item f hmem
      exact hf.line (by grind)
    have hmethods : ∀ m ∈ methods, ∀ l ∈ m.lines, P l := fun m hmem => by
      obtain ⟨vs, hm, hvs⟩ := hm.exists_item m hmem
      exact hm.lines (by grind)
    grind [ClassDecl.lines]

/-- Every line in a program is one of its tokens. -/
theorem IsProgram.lines {p : Program} (h : IsProgram ws p) (hws : ∀ t ∈ ws, P t.line) : ∀ l ∈ p.lines, P l := by
  cases h with
  | expr hb _ => exact Derives.lines hb fun t ht => hws t (List.mem_append_left _ ht)
  | @letIn l i s cs ds bs classes decls body _ hc hd _ _ hb _ =>
    have hclasses : ∀ c ∈ classes, ∀ l ∈ c.lines, P l := fun c hmem => by
      obtain ⟨vs, hc, hvs⟩ := hc.exists_item c hmem
      exact hc.lines (by grind)
    have hdecls : ∀ l ∈ Decl.linesAll decls, P l := DeclDerives.lines (derives_decls hd) (by grind)
    have hbody : ∀ l ∈ body.lines, P l := Derives.lines hb (by grind)
    grind [Program.lines]

end Phrases

end FoolLang
