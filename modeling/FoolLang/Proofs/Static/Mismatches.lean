/-
What is reported of types that do not match. A problem of typing that shows two types shows those that were compared,
and the one that was received is no subtype of the other. The names in a program that was read are identifiers, and so
are those in its types, whose texts tell them: the two texts that a problem shows are never the same.
-/
import FoolLang.Proofs.Renaming.Compilation
import FoolLang.Proofs.Static.Pointing
import FoolLang.Proofs.Static.TypeTexts

namespace FoolLang

/-! ## Problems that show two types -/

/-- The texts of the two types that the advice of a cause shows: the one expected first, or that of the first branch. -/
def Cause.contrast? : Cause → Option (String × String)
  | .incompatibleBranches expected received | .incompatibleValue _ expected received
  | .wrongReturnType _ _ expected received | .argumentTypeMatchError _ _ expected received => some (expected, received)
  | _ => none

/--
The two types that a cause shows, if it shows two, are shown by different texts. The texts are those of types named by
identifiers, and what was received does not go for what was expected.
-/
def Cause.TellsApart (c : Cause) : Prop := ∀ expected received, c.contrast? = some (expected, received) →
  expected ≠ received ∧ ∃ a b : Ty, a.Named ∧ b.Named ∧ a.text = expected ∧ b.text = received ∧ b.subtype a = false

theorem Cause.TellsApart.of_none {c : Cause} (h : c.contrast? = none) : c.TellsApart := fun e r hc => by
  rw [h] at hc
  cases hc

theorem Cause.TellsApart.of_phase {c : Cause} (h : c.phase ≠ .typing) : c.TellsApart := by
  refine .of_none ?_
  cases c <;> first | rfl | exact absurd rfl h

theorem Cause.TellsApart.of_subtype {c : Cause} {a b : Ty} (hc : c.contrast? = some (a.text, b.text)) (ha : a.Named)
    (hb : b.Named) (h : b.subtype a = false) : c.TellsApart := by
  intro expected received hshown
  obtain ⟨rfl, rfl⟩ := Prod.mk.inj (Option.some.inj (hc.symm.trans hshown))
  -- Were the texts the same, the types would be, and any type goes for itself.
  refine ⟨fun htext => ?_, a, b, ha, hb, rfl, rfl, h⟩
  rw [ha.text_inj hb htext, Ty.subtype_refl] at h
  cases h

/-! ## Programs of identifiers -/

/-- Identifiers stay as they are. -/
def Renaming.identifiers : Renaming := ⟨{word | IsIdentifier word}, id, Set.injOn_id _⟩

/-- Every name in a program is an identifier, those in the types of its decorations too. -/
def Program.Named (p : Program) : Prop := p.Renamed .identifiers p

mutual

theorem Ty.Renamed.named : ∀ {t t' : Ty}, t.Renamed .identifiers t' → t.Named
  | _, _, .int | _, _, .bool | _, _, .null => List.forall_mem_nil _
  | _, _, .ref hc => Ty.named_ref.mpr hc.1
  | _, _, .arrow hs => hs.named
  | _, _, .cls hf hm => Ty.named_cls.mpr ⟨Ty.Renamed.namedAll hf, Signature.Renamed.namedAll hm⟩

theorem Signature.Renamed.named : ∀ {s s' : Signature}, s.Renamed .identifiers s' → s.Named
  | _, _, .mk hp ht => Signature.named_iff.mpr ⟨Ty.Renamed.namedAll hp, ht.named⟩

theorem Ty.Renamed.namedAll : ∀ {ts ts' : List Ty}, List.Forall₂ (Ty.Renamed .identifiers) ts ts' → ∀ t ∈ ts, t.Named
  | _, _, .nil => List.forall_mem_nil _
  | _, _, .cons ht hts => List.forall_mem_cons.mpr ⟨ht.named, Ty.Renamed.namedAll hts⟩

theorem Signature.Renamed.namedAll : ∀ {ss ss' : List Signature},
    List.Forall₂ (Signature.Renamed .identifiers) ss ss' → ∀ s ∈ ss, s.Named
  | _, _, .nil => List.forall_mem_nil _
  | _, _, .cons hs hss => List.forall_mem_cons.mpr ⟨hs.named, Signature.Renamed.namedAll hss⟩

end

/-! ## Typing -/

namespace Typed

variable {α β : Type} {P : α → Prop} {Q : β → Prop} {x : Typed α} {f : α → Typed β} {a : α} {c : Cause} {l : Nat}

/-- What a check gives has a property, and the problem that it finds, if it finds one, tells types apart. -/
structure Clear (P : α → Prop) (x : Typed α) : Prop where
  gives : ∀ a, x = .ok a → P a
  finds : Finds (·.cause.TellsApart) x

namespace Clear

theorem pure (h : P a) : Clear P (pure a) := ⟨by rintro _ ⟨⟩; exact h, .pure a⟩

theorem fail (h : c.TellsApart) : Clear P (Typed.fail c l) := ⟨nofun, .fail h⟩

theorem ensure {holds : Bool} (h : holds = false → c.TellsApart) :
    Clear (fun _ => True) (Typed.ensure holds c l) := by
  cases holds with
  | true => exact .pure trivial
  | false => exact .fail (h rfl)

/-- A check whose cause shows no types. -/
theorem plain {holds : Bool} (h : c.contrast? = none) : Clear (fun _ => True) (Typed.ensure holds c l) :=
  .ensure fun _ => .of_none h

theorem decoration {γ : Type} {r : α → γ → Prop} {o : Option α} {o' : Option γ} (h : Option.Rel r o o')
    (hr : ∀ a b, r a b → P a) : Clear P (Typed.decoration o) := by
  cases h with
  | some h => exact .pure (hr _ _ h)
  | none => exact ⟨nofun, .decoration none⟩

theorem bind (hx : Clear P x) (hf : ∀ a, P a → Clear Q (f a)) : Clear Q (x >>= f) := by
  refine ⟨fun b hb => ?_, hx.finds.bind fun a ha => (hf a (hx.gives a ha)).finds⟩
  cases x with
  | ok a => exact (hf a (hx.gives a rfl)).gives b hb
  | error _ => cases hb

theorem resultType (op : BinaryOp) (a b : Ty) : Clear Ty.Named (op.resultType a b l) := by
  cases op <;> exact (Clear.plain rfl).bind fun _ _ => .pure (List.forall_mem_nil _)

theorem join {a b : Ty} (ha : a.Named) (hb : b.Named) : Clear Ty.Named (a.join b l) := by
  unfold Ty.join
  split
  · exact .pure hb
  · split
    · exact .pure ha
    · rename_i hba
      exact .fail (.of_subtype rfl ha hb (Bool.eq_false_of_not_eq_true hba))

theorem asValue {name : String} {t : Ty} (ht : t.Named) : Clear Ty.Named (t.asValue name l) := by
  unfold Ty.asValue
  split
  · exact .fail (.of_none rfl)
  · exact .fail (.of_none rfl)
  · exact .pure ht

theorem asFunction {name : String} {t : Ty} (ht : t.Named) : Clear Signature.Named (t.asFunction name l) := by
  unfold Ty.asFunction
  split
  · exact .pure ht
  · exact .fail (.of_none rfl)

theorem asClass {name : String} {t : Ty} (ht : t.Named) :
    Clear (fun fields => ∀ f ∈ fields, f.Named) (t.asClass name l) := by
  unfold Ty.asClass
  split
  · exact .pure (Ty.named_cls.mp ht).1
  · exact .fail (.of_none rfl)

theorem ensureObject {method : String} {t : Ty} : Clear (fun _ => True) (t.ensureObject method l) := by
  unfold Ty.ensureObject
  split
  · exact .pure trivial
  · exact .fail (.of_none rfl)

/-- As many arguments as there are parameters, which are checked one after the other. -/
theorem arguments {callee : String} {ts : List Ty} {es : List Expr} {t : Ty} (ht : t.Named)
    (hargs : Clear (fun _ => True) (Expr.checkArgs callee l 1 ts es)) : Clear Ty.Named do
      Typed.ensure (ts.length == es.length) (.wrongArgumentCount callee ts.length es.length) l
      Expr.checkArgs callee l 1 ts es
      return t :=
  (Clear.plain rfl).bind fun _ _ => hargs.bind fun _ _ => .pure ht

end Clear

end Typed

section

open Typed

-- By the form of the expression: what its parts give is named, so the types that are compared are told by their texts.
mutual

/-- An expression of identifiers has a type of identifiers, or what is wrong with it tells types apart. -/
theorem Expr.Renamed.clear : ∀ {e e' : Expr}, e.Renamed .identifiers e' → Clear Ty.Named e.type
  | _, _, .int | _, _, .bool | _, _, .null => .pure (List.forall_mem_nil _)
  | _, _, .binary ha hb => ha.clear.bind fun s _ => hb.clear.bind fun t _ => .resultType _ s t
  | _, _, .not he => he.clear.bind fun _ _ => (Clear.plain rfl).bind fun _ _ => .pure (List.forall_mem_nil _)
  | _, _, .cond hc ha hb => by
    refine hc.clear.bind fun _ _ => (Clear.plain rfl).bind fun _ _ => ?_
    exact ha.clear.bind fun _ hs => hb.clear.bind fun _ ht => .join hs ht
  | _, _, .print he => he.clear
  | _, _, .id _ hr => (Clear.decoration hr fun _ _ hr => hr.entry.type.named).bind fun _ ht => .asValue ht
  | _, _, .call _ hes hr => by
    refine (Clear.decoration hr fun _ _ hr => hr.entry.type.named).bind fun _ ht =>
      (Clear.asFunction ht).bind fun _ hs => ?_
    obtain ⟨hparams, hresult⟩ := Signature.named_iff.mp hs
    exact .arguments hresult (Expr.Renamed.checkArgs_clear hes 1 hparams)
  | _, _, .new hc hes hr => by
    refine (Clear.decoration hr fun _ _ hr => hr.entry.type.named).bind fun _ ht =>
      (Clear.asClass ht).bind fun _ hfields => ?_
    exact .arguments (Ty.named_ref.mpr hc.1) (Expr.Renamed.checkArgs_clear hes 1 hfields)
  | _, _, .methodCall he _ hes hb => by
    refine he.clear.bind fun _ _ => Clear.ensureObject.bind fun _ _ => ?_
    refine (Clear.decoration hb fun _ _ hb => hb.type.named).bind fun _ ht => (Clear.asFunction ht).bind fun _ hs => ?_
    obtain ⟨hparams, hresult⟩ := Signature.named_iff.mp hs
    exact .arguments hresult (Expr.Renamed.checkArgs_clear hes 1 hparams)

theorem Expr.Renamed.checkArgs_clear {callee : String} {l : Nat} : ∀ {es es' : List Expr},
    List.Forall₂ (Expr.Renamed .identifiers) es es' → ∀ (position : Nat) {ts : List Ty}, (∀ t ∈ ts, t.Named) →
      Clear (fun _ => True) (Expr.checkArgs callee l position ts es)
  | _, _, .nil, _, [], _ | _, _, .nil, _, _ :: _, _ | _, _, .cons _ _, _, [], _ => by
    unfold Expr.checkArgs
    exact .pure trivial
  | _, _, .cons he hes, position, t :: ts, h => by
    obtain ⟨ht, hts⟩ := List.forall_mem_cons.mp h
    unfold Expr.checkArgs
    refine he.clear.bind fun s hs => (Clear.ensure fun hsub => .of_subtype rfl ht hs hsub).bind fun _ _ => ?_
    exact Expr.Renamed.checkArgs_clear hes (position + 1) hts

end

theorem Header.Renamed.checkBody_clear {h h' : Header} {e e' : Expr} (kind : String) (hh : h.Renamed .identifiers h')
    (he : e.Renamed .identifiers e') : Clear (fun _ => True) (h.checkBody kind e) :=
  he.clear.bind fun _ ht => .ensure fun hsub => .of_subtype rfl hh.result.named ht hsub

mutual

theorem Decl.Renamed.tellsApart : ∀ {d d' : Decl}, d.Renamed .identifiers d' → ∀ x ∈ d.typeProblems, x.cause.TellsApart
  | _, _, .var _ ht he => Finds.problems
    (he.clear.bind fun _ hs => Clear.ensure fun hsub => .of_subtype rfl ht.named hs hsub).finds
  | _, _, .function hh hds he => List.forall_mem_append.mpr
    ⟨Decl.Renamed.tellsApartAll hds, (hh.checkBody_clear "function" he).finds.problems⟩

theorem Decl.Renamed.tellsApartAll : ∀ {ds ds' : List Decl}, List.Forall₂ (Decl.Renamed .identifiers) ds ds' →
    ∀ x ∈ Decl.typeProblemsAll ds, x.cause.TellsApart
  | _, _, .nil => List.forall_mem_nil _
  | _, _, .cons hd hds => List.forall_mem_append.mpr ⟨hd.tellsApart, Decl.Renamed.tellsApartAll hds⟩

end

theorem Method.Renamed.tellsApart {m m' : Method} (h : m.Renamed .identifiers m') :
    ∀ x ∈ m.typeProblems, x.cause.TellsApart := by
  have hbody := h.header.checkBody_clear "method" h.body
  exact List.forall_mem_append.mpr ⟨Decl.Renamed.tellsApartAll h.locals, hbody.finds.problems⟩

/-- What is wrong with parts that go with others in pairs is of a sort if it is for each pair. -/
theorem forall_mem_flatMap_of_forall₂ {α β γ : Type} {R : α → β → Prop} {f : α → List γ} {Q : γ → Prop} {as : List α}
    {bs : List β} (h : List.Forall₂ R as bs) (hf : ∀ a b, R a b → ∀ x ∈ f a, Q x) : ∀ x ∈ as.flatMap f, Q x :=
  List.forall_mem_flatMap.mpr ((List.forall₂_and_left as bs).mp (h.imp fun a b hab => ⟨hf a b hab, hab⟩)).1

theorem ClassDecl.Renamed.tellsApart {c c' : ClassDecl} (h : c.Renamed .identifiers c') :
    ∀ x ∈ c.typeProblems, x.cause.TellsApart :=
  forall_mem_flatMap_of_forall₂ h.methods fun _ _ hm => hm.tellsApart

theorem Program.Renamed.tellsApart {p p' : Program} (h : p.Renamed .identifiers p') :
    ∀ x ∈ p.typeProblems, x.cause.TellsApart := by
  cases h with
  | letIn hcs hds he =>
    have hclasses := forall_mem_flatMap_of_forall₂ hcs fun _ _ hc => ClassDecl.Renamed.tellsApart hc
    exact List.forall_mem_append.mpr
      ⟨List.forall_mem_append.mpr ⟨hclasses, Decl.Renamed.tellsApartAll hds⟩, he.clear.finds.problems⟩
  | expr he => exact he.clear.finds.problems

end

/-! ## From texts to problems -/

/-- The name that a token of a text spells is an identifier. -/
theorem Lexeme.isIdentifier {v rest : List Char} {k : Kind} (h : Lexeme v rest k) (hk : k = .identifier) :
    IsIdentifier (String.ofList v) := by
  have hkeywords : ∀ x ∈ Kind.keywords, x.2 ≠ .identifier := by decide
  have hmarks : ∀ x ∈ Kind.marks, x.2 ≠ .identifier := by decide
  cases h with
  | keyword _ hword => exact absurd hk (hkeywords _ hword)
  | mark _ hmark _ => exact absurd hk (hmarks _ hmark)
  | number => cases hk
  | identifier hv hword =>
    refine ⟨by rw [String.toList_ofList]; exact hv.1, fun hmem => ?_⟩
    obtain ⟨⟨w, j⟩, hj, hw⟩ := List.mem_map.mp hmem
    exact hword j (hw ▸ hj)

theorem Token.ofSource_identifiers {source : String} {ts : List Token} (h : ofSource source = .ok ts) :
    List.Forall₂ (Token.Renamed .identifiers) ts ts := by
  obtain ⟨parts, gap, -, haccount, -, rfl⟩ := scan_eq_ok.mp h
  refine List.forall₂_same.mpr fun t ht => ⟨rfl, ?_⟩
  split
  · rename_i hk
    rcases List.mem_append.mp ht with ht | ht
    · obtain ⟨⟨g, t⟩, hpart, rfl⟩ := List.mem_map.mp ht
      obtain ⟨front, back, rfl⟩ := List.append_of_mem hpart
      obtain ⟨-, htoken, -⟩ := haccount front g t back rfl
      have hname := htoken.isIdentifier hk
      rw [String.ofList_toList] at hname
      exact ⟨hname, rfl⟩
    · obtain rfl := List.mem_singleton.mp ht
      cases hk
  · rfl

/-- The names in a program that was read are identifiers. -/
theorem Program.ofSource_named {source : String} {p : Program} (h : ofSource source = .ok p) : p.Named := by
  rcases ofSource_cases source with ⟨d, -, hs⟩ | ⟨ts, hts, -⟩
  · rw [hs] at h
    cases h
  · have hread := ofSource_renamed hts hts (Token.ofSource_identifiers hts)
    rw [h] at hread
    cases hread with
    | ok hp => exact hp

/--
The texts of types tell the types. Two types whose class names are identifiers have the same text only if they are the
same, however arrows and classes stand in one another. So a problem of typing that shows an expected and a received
type does not show one text for both: not of any program whose names are identifiers, and not of any text.
-/
theorem compile_tellsApart :
    (∀ a b : Ty, a.Named → b.Named → (a.text = b.text ↔ a = b)) ∧
    (∀ p : Program, p.Named → ∀ d ∈ p.typeProblems, d.cause.TellsApart) ∧
    ∀ source ds, compile source = .error ds → ∀ d ∈ ds, d.cause.TellsApart := by
  refine ⟨fun a b ha hb => ⟨ha.text_inj hb, fun h => by rw [h]⟩, fun p hp => hp.tellsApart, fun source ds h d hd => ?_⟩
  rcases compile_error h with ⟨d', hd', rfl⟩ | ⟨p, hp, rfl⟩
  · obtain rfl := List.mem_singleton.mp hd
    exact .of_phase (ne_of_eq_of_ne (Program.ofSource_phase hd') (by decide))
  · rcases List.mem_append.mp hd with hd | hd
    · exact .of_phase (ne_of_eq_of_ne (p.resolve_phase d hd) (by decide))
    · exact (Program.ofSource_named hp).resolve.1.tellsApart d hd

/-- The type of what takes a function. -/
def takesFunction : Ty := .arrow ⟨[.arrow ⟨[.int], .ref "A"⟩], .int⟩

/-- The type of what gives a function: brackets alone tell its text from that of what takes one. -/
def givesFunction : Ty := .arrow ⟨[.int], .arrow ⟨[.ref "A"], .int⟩⟩

/-- A choice of a number or nothing. -/
def numberOrNothing : Program := .expr (.cond (.bool true 1) (.int 0 1) (.null 1) 1)

/-- A variable for objects of one class, with an object of another one. -/
def otherObject : String := "let class A() {} class B() {} var x:A = new B(); in x;"

theorem compile_tellsApart_otherObject :
    (takesFunction.Named ∧ givesFunction.Named ∧ takesFunction.text ≠ givesFunction.text) ∧
    (numberOrNothing.Named ∧ numberOrNothing.typeProblems = [⟨.incompatibleBranches "int" "null", 1⟩] ∧
      (Cause.incompatibleBranches "int" "null").TellsApart) ∧
    compile otherObject = .error [⟨.incompatibleValue "x" "A" "B", 1⟩] ∧
      (Cause.incompatibleValue "x" "A" "B").TellsApart := by
  obtain ⟨htexts, htrees, hsources⟩ := compile_tellsApart
  refine ⟨?_, ?_, ?_⟩
  · have htakes : takesFunction.Named := by decide
    have hgives : givesFunction.Named := by decide
    exact ⟨htakes, hgives, fun h => absurd ((htexts _ _ htakes hgives).mp h) (by decide +kernel)⟩
  · have hnamed : numberOrNothing.Named := .expr (.cond .bool .int .null)
    have hproblems : numberOrNothing.typeProblems = [⟨.incompatibleBranches "int" "null", 1⟩] := by decide +kernel
    exact ⟨hnamed, hproblems, htrees _ hnamed _ (hproblems ▸ List.mem_singleton_self _)⟩
  · have hcompile : compile otherObject = .error [⟨.incompatibleValue "x" "A" "B", 1⟩] := by decide +kernel
    exact ⟨hcompile, hsources _ _ hcompile _ (List.mem_singleton_self _)⟩

end FoolLang
