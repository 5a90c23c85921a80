/-
A program that compiles means the same on the machine as in its text: the run of its code ends as the
evaluation of its tree ends, with the same value and the same output or for the same reason, and goes on
for as long as the evaluation does. This holds unless the stack meets the heap.
-/
import FoolLang.Proofs.Code.Structured
import FoolLang.Proofs.Machine.Trace
import FoolLang.Proofs.Simulation.Programs
import FoolLang.Proofs.Static.Written

namespace FoolLang

open Machine

/-! ## Compiled code -/

/-- The code of a text links, and the resolved tree of the text is sound and laid in it, if code addresses are words. -/
theorem compile_laid {source : String} {is : List Instruction} (h : compile source = .ok is) :
    ∃ p ops, Program.ofSource source = .ok p ∧ link is = .ok ops ∧ p.resolve.1.Sound ∧
      (ops.size < 2 ^ 31 → p.resolve.1.Laid ops) := by
  obtain ⟨p, hp, hsound, hlower⟩ := compile_ok h
  obtain ⟨ops, hlink⟩ := Program.lower_links hlower
  exact ⟨p, ops, hp, hlink, hsound, Program.lower_laid hlower hsound hlink⟩

/-! ## The end of a run -/

/--
The run of linked code ends as an evaluation with a limited depth of calls does. If the evaluation uses its
depth up, the run goes on for as many steps; an evaluation that is stuck has no counterpart.
-/
def Machine.EndsAs (ops : Array Op) (n : Nat) : Except Stop (Int32 × List Int32) → Prop
  | .ok (v, o) => ∃ k, (Machine.run ops k .initial).1 = .halted ⟨o, some v⟩
  | .error .divisionByZero => ∃ k a, (Machine.run ops k .initial).1 = .faulted (.divisionByZero a)
  | .error .nullReceiver => ∃ k, (Machine.run ops k .initial).1 = .faulted (.outOfBounds (-1))
  | .error .exhausted => (Machine.run ops n .initial).1 = .unfinished
  | .error .stuck => False

variable {p : Program} {code : Array Op}

/-- Unless the stack meets the heap, the run of a program ends as its evaluation does. -/
theorem Program.endsAs (hp : p.Sound) (hl : p.Laid code) (hsize : code.size < 2 ^ 31)
    (hfree : ∀ k, ¬ Crowded code k) (n : Nat) : Machine.EndsAs code n (p.evaluate n) := by
  obtain ⟨j, -, -, hend⟩ := Program.simulated hsize hp hl (List.nil_subset _) n
  have hend := hend.resolve_left (hfree j)
  match p.evaluate n, hend with
  | .ok (v, o), hend =>
    obtain ⟨c, ⟨s, hv, hs, -⟩, hhalt, ⟨st, hstack⟩, hout⟩ := hend
    obtain ⟨s', hstep⟩ := step_halt hs hhalt hstack
    rw [← hout] at hstep
    exact ⟨j + 1, congrArg Prod.fst (hv.halted hstep)⟩
  | .error .divisionByZero, hend =>
    obtain ⟨c, hat, -, -, hdivides⟩ := hend
    obtain ⟨s, s', hv, -, hstep⟩ := hat.divides (hfree j) hdivides
    exact ⟨j + 1, c.ip, congrArg Prod.fst (hv.faulted hstep)⟩
  | .error .nullReceiver, hend =>
    obtain ⟨c, hat, -, -, hderefs⟩ := hend
    obtain ⟨s, s', hv, -, hstep⟩ := hat.dereferences (hfree j) hderefs
    exact ⟨j + 1, congrArg Prod.fst (hv.faulted hstep)⟩
  | .error .exhausted, ⟨⟨c, hat⟩, hn⟩ =>
    obtain ⟨s, hv⟩ := hat.visits
    obtain ⟨t, ht⟩ := hv.before (show n ≤ j by omega)
    exact congrArg Prod.fst ht

/--
The compiler preserves meaning. The code of a text that compiles links. If its addresses are words, its run ends as
the evaluation of the resolved tree does, unless the stack meets the heap: with the value on top of the stack and
the output printed, at a division by zero, or where the null reference is dereferenced.
-/
theorem compile_preserves {source : String} {is : List Instruction} (h : compile source = .ok is) :
    ∃ p ops, Program.ofSource source = .ok p ∧ link is = .ok ops ∧
      (ops.size < 2 ^ 31 → (∀ k, ¬ Crowded ops k) → ∀ n, Machine.EndsAs ops n (p.resolve.1.evaluate n)) := by
  obtain ⟨p, ops, hp, hlink, hsound, hlaid⟩ := compile_laid h
  exact ⟨p, ops, hp, hlink, fun hsize hfree n => Program.endsAs hsound (hlaid hsize) hsize hfree n⟩

/-! ## A program -/

/-- A recursive function, and an object that is asked for its field. -/
def boxed : String :=
  "let class Box (x:int) \x7b fun get:int () x; \x7d " ++
    "fun f:int (n:int) if (n == 0) then \x7b1\x7d else \x7bn * f(n - 1)\x7d; in print(new Box(f(3)).get());"

/-- The tokens of the program. -/
def boxedTokens : List Token :=
  [⟨.kwLet, "let", 1⟩, ⟨.kwClass, "class", 1⟩, ⟨.identifier, "Box", 1⟩, ⟨.openParen, "(", 1⟩, ⟨.identifier, "x", 1⟩,
    ⟨.colon, ":", 1⟩, ⟨.kwInt, "int", 1⟩, ⟨.closeParen, ")", 1⟩, ⟨.openCurly, "\x7b", 1⟩, ⟨.kwFun, "fun", 1⟩,
    ⟨.identifier, "get", 1⟩, ⟨.colon, ":", 1⟩, ⟨.kwInt, "int", 1⟩, ⟨.openParen, "(", 1⟩, ⟨.closeParen, ")", 1⟩,
    ⟨.identifier, "x", 1⟩, ⟨.semicolon, ";", 1⟩, ⟨.closeCurly, "\x7d", 1⟩, ⟨.kwFun, "fun", 1⟩, ⟨.identifier, "f", 1⟩,
    ⟨.colon, ":", 1⟩, ⟨.kwInt, "int", 1⟩, ⟨.openParen, "(", 1⟩, ⟨.identifier, "n", 1⟩, ⟨.colon, ":", 1⟩,
    ⟨.kwInt, "int", 1⟩, ⟨.closeParen, ")", 1⟩, ⟨.kwIf, "if", 1⟩, ⟨.openParen, "(", 1⟩, ⟨.identifier, "n", 1⟩,
    ⟨.equals, "==", 1⟩, ⟨.number, "0", 1⟩, ⟨.closeParen, ")", 1⟩, ⟨.kwThen, "then", 1⟩, ⟨.openCurly, "\x7b", 1⟩,
    ⟨.number, "1", 1⟩, ⟨.closeCurly, "\x7d", 1⟩, ⟨.kwElse, "else", 1⟩, ⟨.openCurly, "\x7b", 1⟩, ⟨.identifier, "n", 1⟩,
    ⟨.star, "*", 1⟩, ⟨.identifier, "f", 1⟩, ⟨.openParen, "(", 1⟩, ⟨.identifier, "n", 1⟩, ⟨.dash, "-", 1⟩,
    ⟨.number, "1", 1⟩, ⟨.closeParen, ")", 1⟩, ⟨.closeCurly, "\x7d", 1⟩, ⟨.semicolon, ";", 1⟩, ⟨.kwIn, "in", 1⟩,
    ⟨.kwPrint, "print", 1⟩, ⟨.openParen, "(", 1⟩, ⟨.kwNew, "new", 1⟩, ⟨.identifier, "Box", 1⟩, ⟨.openParen, "(", 1⟩,
    ⟨.identifier, "f", 1⟩, ⟨.openParen, "(", 1⟩, ⟨.number, "3", 1⟩, ⟨.closeParen, ")", 1⟩, ⟨.closeParen, ")", 1⟩,
    ⟨.dot, ".", 1⟩, ⟨.identifier, "get", 1⟩, ⟨.openParen, "(", 1⟩, ⟨.closeParen, ")", 1⟩, ⟨.closeParen, ")", 1⟩,
    ⟨.semicolon, ";", 1⟩, ⟨.eof, "EOF", 1⟩]

/-- The tree of the program. -/
def boxedProgram : Program :=
  .letIn [⟨"Box", [⟨"x", .int, 1⟩], [⟨⟨"get", .int, [], 1⟩, [], .id "x" none 1, none⟩], 1⟩]
    [.function ⟨"f", .int, [⟨"n", .int, 1⟩], 1⟩ [] (.cond (.binary .equal (.id "n" none 1) (.int 0 1) 1) (.int 1 1)
      (.binary .times (.id "n" none 1) (.call "f" [.binary .minus (.id "n" none 1) (.int 1 1) 1] none 1) 1) 1)]
    (.print (.methodCall (.new "Box" [.call "f" [.int 3 1] none 1] none 1) "get" [] none 1) 1)

/-- The code of the program. -/
def boxedCode : List Instruction := (compile boxed).toOption.getD []

/-- The linked code of the program. -/
def boxedOps : Array Op := (link boxedCode).toOption.getD #[]

theorem ofSource_boxed : Program.ofSource boxed = .ok boxedProgram := by
  have hts : Token.ofSource boxed = .ok boxedTokens := by decide +kernel
  exact Program.ofSource_of_tokens hts rfl

theorem boxed_accepted : boxedProgram.resolve.2.problems ++ boxedProgram.resolve.1.typeProblems = [] := by
  decide +kernel

theorem compile_boxed_eq : compile boxed = boxedProgram.resolve.1.lower.mapError ([·]) :=
  compile_of_ofSource ofSource_boxed boxed_accepted

/-- The code comes from the tree, so nothing that is evaluated below reads the text again. -/
theorem boxedOps_eq : boxedOps = (link (boxedProgram.resolve.1.lower.toOption.getD [])).toOption.getD #[] := by
  rw [boxedOps, boxedCode, compile_boxed_eq]
  cases boxedProgram.resolve.1.lower <;> rfl

theorem compile_boxed : compile boxed = .ok boxedCode := by
  have hs := (List.append_eq_nil_iff.mp boxed_accepted).1
  obtain ⟨code, hcode⟩ := boxedProgram.resolve.1.exists_lower_iff.mpr (boxedProgram.resolve_resolved hs).decorated
  rw [boxedCode, compile_boxed_eq, hcode]
  rfl

theorem link_boxed : link boxedCode = .ok boxedOps := by
  obtain ⟨p, ops, -, hlink, -⟩ := compile_laid compile_boxed
  rw [boxedOps, hlink]
  rfl

/-- The run of the program halts in a state with room left. -/
theorem boxedOps_halts : boxedOps.size < 2 ^ 31 ∧ ∃ c ∈ Config.initial.after? boxedOps 202, c.Roomy ∧
    boxedOps[c.ip]? = some (.plain .halt) ∧ c.stack ≠ [] := by
  rw [boxedOps_eq]
  decide +kernel

theorem boxedOps_size : boxedOps.size < 2 ^ 31 := boxedOps_halts.1

/-- The run of the program visits what its trace comes to. -/
theorem at_boxed {c : Config} {k : Nat} (h : Config.initial.after? boxedOps k = some c) : At boxedOps k c := by
  have hat := (at_initial.after boxedOps_size h).1
  rwa [Nat.zero_add] at hat

/-- The program needs little room. -/
theorem boxed_not_crowded (k : Nat) : ¬ Crowded boxedOps k := by
  obtain ⟨-, c, hc, hr, hop, hs⟩ := boxedOps_halts
  exact not_crowded_of_trace boxedOps_size hc hr hop hs k

theorem compile_preserves_boxed : ∃ is ops k, compile boxed = .ok is ∧ link is = .ok ops ∧
    (Machine.run ops k .initial).1 = .halted ⟨[6], some 6⟩ := by
  have hvalue : boxedProgram.resolve.1.evaluate 5 = .ok (6, [6]) := by decide +kernel
  obtain ⟨p, ops, hp, hlink, hends⟩ := compile_preserves compile_boxed
  cases hlink.symm.trans link_boxed
  cases hp.symm.trans ofSource_boxed
  have hend := hends boxedOps_size boxed_not_crowded 5
  rw [hvalue] at hend
  obtain ⟨k, hk⟩ := hend
  exact ⟨boxedCode, boxedOps, k, compile_boxed, hlink, hk⟩

end FoolLang
