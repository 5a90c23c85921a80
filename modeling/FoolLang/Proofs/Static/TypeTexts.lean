/-
The text of a type tells the type. It begins with a token that tells the form of the type, a name ends where a mark or
the end of the text follows, and items end at the mark that closes them. Main statement: types whose class names are
identifiers have the same text only if they are the same type, whatever stands in them.
-/
import FoolLang.Proofs.Token.Lexemes
import FoolLang.Ty

namespace FoolLang

/-! ## Class names -/

/-- A word is an identifier: it is a name, and it is not reserved. -/
def IsIdentifier (word : String) : Prop := Text.isName word.toList = true ∧ word ∉ Kind.keywords.map (·.1)

instance (word : String) : Decidable (IsIdentifier word) := inferInstanceAs (Decidable (_ ∧ _))

mutual

/-- The class names in a type. -/
def Ty.classNames : Ty → List String
  | .int | .bool | .null => []
  | .ref c => [c]
  | .arrow s => s.classNames
  | .cls fs ms => Ty.classNamesAll fs ++ Signature.classNamesAll ms

/-- The class names in a signature. -/
def Signature.classNames : Signature → List String
  | ⟨ps, r⟩ => Ty.classNamesAll ps ++ r.classNames

/-- The class names in some types. -/
def Ty.classNamesAll : List Ty → List String
  | [] => []
  | t :: ts => t.classNames ++ Ty.classNamesAll ts

/-- The class names in some signatures. -/
def Signature.classNamesAll : List Signature → List String
  | [] => []
  | s :: ss => s.classNames ++ Signature.classNamesAll ss

end

/-- Every class name in a type is an identifier. -/
def Ty.Named (t : Ty) : Prop := ∀ c ∈ t.classNames, IsIdentifier c

/-- Every class name in a signature is an identifier. -/
def Signature.Named (s : Signature) : Prop := ∀ c ∈ s.classNames, IsIdentifier c

instance (t : Ty) : Decidable t.Named := inferInstanceAs (Decidable (∀ c ∈ t.classNames, IsIdentifier c))

theorem Ty.classNamesAll_eq : ∀ ts : List Ty, Ty.classNamesAll ts = ts.flatMap Ty.classNames
  | [] => rfl
  | t :: ts => by rw [Ty.classNamesAll, classNamesAll_eq ts, List.flatMap_cons]

theorem Signature.classNamesAll_eq : ∀ ss : List Signature, Signature.classNamesAll ss = ss.flatMap Signature.classNames
  | [] => rfl
  | s :: ss => by rw [Signature.classNamesAll, classNamesAll_eq ss, List.flatMap_cons]

theorem Ty.named_ref {c : String} : (Ty.ref c).Named ↔ IsIdentifier c := List.forall_mem_singleton

theorem Ty.named_cls {fs : List Ty} {ms : List Signature} :
    (Ty.cls fs ms).Named ↔ (∀ f ∈ fs, f.Named) ∧ ∀ m ∈ ms, m.Named := by
  unfold Ty.Named Signature.Named
  rw [Ty.classNames, List.forall_mem_append, Ty.classNamesAll_eq, Signature.classNamesAll_eq, List.forall_mem_flatMap,
    List.forall_mem_flatMap]

theorem Signature.named_iff {σ : Signature} : σ.Named ↔ (∀ p ∈ σ.params, p.Named) ∧ σ.result.Named := by
  obtain ⟨ps, t⟩ := σ
  unfold Ty.Named Signature.Named
  rw [Signature.classNames, List.forall_mem_append, Ty.classNamesAll_eq, List.forall_mem_flatMap]

/-! ## Where names end -/

variable {v r s : List Char}

/-- No name goes on into a text. -/
def EndsName (r : List Char) : Prop := ∀ c ∈ r.head?, Text.isNameRest c = false

theorem endsName_nil : EndsName [] := nofun

theorem endsName_cons {c : Char} (h : Text.isNameRest c = false) : EndsName (c :: r) := fun d hd => by
  cases hd
  exact h

/-- A name is the longest one where no name goes on into what follows. -/
theorem EndsName.longest (hr : EndsName r) (hv : Text.isName v = true) : Longest (Text.isName · = true) v r := by
  refine ⟨hv, fun w hw hname => ?_⟩
  have hrun : (v ++ r).takeWhile Text.isNameRest = v := by
    rw [List.takeWhile_append_of_pos (Text.isNameRest_of_isName hv)]
    cases r with
    | nil => exact List.append_nil v
    | cons c r => rw [List.takeWhile_cons_of_neg (by simpa using hr c rfl), List.append_nil]
  exact hrun ▸ prefix_takeWhile hw (Text.isNameRest_of_isName hname)

/-! ## First tokens -/

/-- The token that the text of a type begins with: its kind and its text. -/
def Ty.opening : Ty → Kind × String
  | .int => (.kwInt, "int")
  | .bool => (.kwBool, "bool")
  | .null => (.kwNull, "null")
  | .ref c => (.identifier, c)
  | .arrow _ => (.openParen, "(")
  | .cls _ _ => (.kwClass, "class")

theorem lexeme_keyword {k : Kind} {word : String} (hk : (word, k) ∈ Kind.keywords) (hr : EndsName r) :
    Lexeme word.toList r k := by
  have hkeywords : ∀ x ∈ Kind.keywords, Text.isName x.1.toList = true := by decide
  exact .keyword (hr.longest (hkeywords _ hk)) (by rwa [String.ofList_toList])

theorem IsIdentifier.lexeme {word : String} (h : IsIdentifier word) (hr : EndsName r) :
    Lexeme word.toList r .identifier := by
  refine .identifier (hr.longest h.1) fun k hk => h.2 ?_
  rw [String.ofList_toList] at hk
  exact List.mem_map_of_mem hk

/-- A bracket is a token whatever follows. -/
theorem lexeme_openParen : Lexeme "(".toList r .openParen := by
  have hmarks : ∀ m ∈ Kind.marks, m.1.toList.head? = some '(' → m.1.toList = "(".toList := by decide
  refine .mark ⟨⟨.openParen, by decide⟩, fun w hw hmark => ?_⟩ (by decide) fun hc => ?_
  · obtain ⟨k, hk⟩ := hmark
    obtain ⟨c, w, rfl, -⟩ := IsMark.begins ⟨k, hk⟩
    obtain ⟨rfl, -⟩ := List.cons_prefix_cons.mp hw
    have hword := hmarks _ hk
    rw [String.toList_ofList] at hword
    exact (hword rfl).symm ▸ List.prefix_refl _
  · obtain ⟨t, ht⟩ := hc.slash
    cases ht

/-! ## Texts of items -/

section Items

variable {α : Type} {P : α → Prop} {text : α → String} {as bs : List α} {close : Char}

/-- The texts of some items behind a first one, each behind a comma. -/
def behindCommas (text : α → String) (as : List α) : List Char := as.flatMap fun a => ',' :: ' ' :: (text a).toList

theorem toList_intercalate_cons (text : α → String) : ∀ (a : α) (as : List α),
    (", ".intercalate ((a :: as).map text)).toList = (text a).toList ++ behindCommas text as
  | a, [] => by simp [behindCommas]
  | a, b :: as => by
    have hrest := toList_intercalate_cons text b as
    simp only [String.toList_intercalate, List.map_cons, List.intercalate] at hrest ⊢
    rw [List.intersperse_cons_cons, List.flatten_cons, List.flatten_cons, hrest]
    rfl

/-- A character closes items: no name goes on with it, and it is no comma. -/
structure ClosesItems (close : Char) : Prop where
  name : Text.isNameRest close = false
  comma : close ≠ ','

theorem endsName_behindCommas (hc : ClosesItems close) : EndsName (behindCommas text as ++ close :: r) := by
  cases as with
  | nil => exact endsName_cons hc.name
  | cons a as => exact endsName_cons (by decide)

/-- The text of an item tells it among the items of a sort, and tells its own end, if a name ends there. -/
def Tells (P : α → Prop) (text : α → String) (a : α) : Prop := ∀ (b : α) (r s : List Char), P b → EndsName r →
  EndsName s → (text a).toList ++ r = (text b).toList ++ s → a = b ∧ r = s

theorem Tells.behind (hc : ClosesItems close) : ∀ {as bs : List α} {r s : List Char}, (∀ a ∈ as, Tells P text a) →
    (∀ b ∈ bs, P b) → behindCommas text as ++ close :: r = behindCommas text bs ++ close :: s → as = bs ∧ r = s
  | [], [], _, _, _, _, h => ⟨rfl, (List.cons.inj h).2⟩
  | [], _ :: _, _, _, _, _, h => absurd (List.cons.inj h).1 hc.comma
  | _ :: _, [], _, _, _, _, h => absurd (List.cons.inj h).1.symm hc.comma
  | a :: as, b :: bs, r, s, has, hbs, h => by
    obtain ⟨ha, hothers⟩ := List.forall_mem_cons.mp has
    obtain ⟨hb, hsort⟩ := List.forall_mem_cons.mp hbs
    have hitem : (text a).toList ++ (behindCommas text as ++ close :: r) =
        (text b).toList ++ (behindCommas text bs ++ close :: s) := by simpa [behindCommas] using h
    obtain ⟨rfl, hbehind⟩ := ha b _ _ hb (endsName_behindCommas hc) (endsName_behindCommas hc) hitem
    obtain ⟨rfl, hrest⟩ := Tells.behind hc hothers hsort hbehind
    exact ⟨rfl, hrest⟩

/-- The text of some items tells them, if no item begins with what closes them. -/
theorem Tells.items (hc : ClosesItems close) (hbegins : ∀ a, P a → Begins (¬ · = close) (text a).toList)
    (has : ∀ a ∈ as, P a ∧ Tells P text a) (hbs : ∀ b ∈ bs, P b)
    (h : (", ".intercalate (as.map text)).toList ++ close :: r =
      (", ".intercalate (bs.map text)).toList ++ close :: s) :
    as = bs ∧ r = s := by
  have hclose : Begins (· = close) [close] := ⟨close, [], rfl, rfl⟩
  -- Both lists are empty or neither is, for what closes the one would be where the other begins.
  cases as with
  | nil =>
    cases bs with
    | nil => exact ⟨rfl, (List.cons.inj h).2⟩
    | cons b bs =>
      rw [toList_intercalate_cons, List.append_assoc] at h
      exact absurd h (hclose.ne (hbegins b (hbs b List.mem_cons_self)))
  | cons a as =>
    obtain ⟨⟨ha, htells⟩, hothers⟩ := List.forall_mem_cons.mp has
    rw [toList_intercalate_cons, List.append_assoc] at h
    cases bs with
    | nil => exact absurd h.symm (hclose.ne (hbegins a ha))
    | cons b bs =>
      obtain ⟨hb, hsort⟩ := List.forall_mem_cons.mp hbs
      rw [toList_intercalate_cons, List.append_assoc] at h
      obtain ⟨rfl, hbehind⟩ := htells b _ _ hb (endsName_behindCommas hc) (endsName_behindCommas hc) h
      obtain ⟨rfl, hrest⟩ := Tells.behind hc (fun a ha => (hothers a ha).2) hsort hbehind
      exact ⟨rfl, hrest⟩

end Items

theorem closesItems_paren : ClosesItems ')' := ⟨by decide, by decide⟩

theorem closesItems_curly : ClosesItems '\x7d' := ⟨by decide, by decide⟩

/-! ## Texts of types -/

theorem Ty.texts_eq : ∀ ts : List Ty, Ty.texts ts = ts.map Ty.text
  | [] => rfl
  | t :: ts => by rw [Ty.texts, texts_eq ts, List.map_cons]

theorem Signature.texts_eq : ∀ ss : List Signature, Signature.texts ss = ss.map Signature.text
  | [] => rfl
  | s :: ss => by rw [Signature.texts, texts_eq ss, List.map_cons]

theorem Signature.toList_text (ps : List Ty) (t : Ty) : (Signature.mk ps t).text.toList ++ r =
    "(".toList ++ ((", ".intercalate (ps.map Ty.text)).toList ++ ')' :: (" -> ".toList ++ (t.text.toList ++ r))) := by
  rw [Signature.text, Ty.texts_eq]
  simp [toString]

theorem Ty.toList_cls (fs : List Ty) (ms : List Signature) : (Ty.cls fs ms).text.toList ++ r =
    "class".toList ++ ("(".toList ++ ((", ".intercalate (fs.map Ty.text)).toList ++ ')' :: (" \x7b".toList ++
      ((", ".intercalate (ms.map Signature.text)).toList ++ '\x7d' :: r)))) := by
  rw [Ty.text, Ty.texts_eq, Signature.texts_eq]
  simp [toString]

/-- The text of a type begins with the token that opens the type. -/
theorem Ty.Named.opens {t : Ty} (h : t.Named) (hr : EndsName r) : ∃ behind,
    t.text.toList ++ r = t.opening.2.toList ++ behind ∧ Lexeme t.opening.2.toList behind t.opening.1 := by
  cases t with
  | int | bool | null => exact ⟨r, rfl, lexeme_keyword (by decide) hr⟩
  | ref c => exact ⟨r, rfl, (named_ref.mp h).lexeme hr⟩
  | arrow s =>
    obtain ⟨ps, t⟩ := s
    exact ⟨_, Signature.toList_text ps t, lexeme_openParen⟩
  | cls fs ms =>
    have hclass : ("class", Kind.kwClass) ∈ Kind.keywords := by decide
    exact ⟨_, toList_cls fs ms, lexeme_keyword hclass (endsName_cons (by decide))⟩

theorem Ty.Named.opening_eq {a b : Ty} (ha : a.Named) (hb : b.Named) (hr : EndsName r) (hs : EndsName s)
    (h : a.text.toList ++ r = b.text.toList ++ s) : a.opening = b.opening := by
  obtain ⟨u, hu, hlexeme⟩ := ha.opens hr
  obtain ⟨w, hw, hlexeme'⟩ := hb.opens hs
  -- No two tokens stand at one place, and here both texts begin.
  obtain ⟨hword, hkind⟩ := hlexeme.unique hlexeme' (hu.symm.trans (h.trans hw))
  exact Prod.ext hkind (String.toList_injective hword)

/-- The text of a type with no parts is its opening token. -/
theorem Ty.tells_of_plain {a : Ty} (ha : a.Named) (hplain : ∀ b : Ty, a.opening = b.opening → a = b) :
    Tells Ty.Named Ty.text a := by
  intro b r s hb hr hs h
  obtain rfl := hplain b (ha.opening_eq hb hr hs h)
  exact ⟨rfl, List.append_cancel_left h⟩

theorem Signature.begins : ∀ σ : Signature, Begins (· = '(') σ.text.toList
  | ⟨ps, t⟩ => by
    have htext := toList_text (r := []) ps t
    rw [List.append_nil] at htext
    exact ⟨'(', _, htext, rfl⟩

/-- No type begins with a mark that closes items. -/
theorem Ty.Named.begins {a : Ty} (ha : a.Named) : Begins (¬ · = ')') a.text.toList := by
  cases a with
  | int | bool | null => exact ⟨_, _, rfl, by decide⟩
  | ref c => exact (isName_begins (named_ref.mp ha).1).mono fun d hd hclose => by rw [hclose] at hd; cases hd
  | arrow σ => exact σ.begins.mono fun d hd => by rw [hd]; decide
  | cls fs ms =>
    have htext := toList_cls (r := []) fs ms
    rw [List.append_nil] at htext
    exact ⟨'c', _, htext, by decide⟩

-- By the first type: its opening token is that of the second, so both are of one form, and their parts follow in turn.
mutual

/-- The text of a type tells the type. -/
theorem Ty.tells : ∀ a : Ty, a.Named → Tells Ty.Named Ty.text a
  | .int, ha | .bool, ha | .null, ha => Ty.tells_of_plain ha fun b hb => by cases b <;> cases hb; rfl
  | .ref c, ha => Ty.tells_of_plain ha fun b hb => by cases b <;> cases hb; rfl
  | .arrow σ, ha => fun b r s hb hr hs h => by
    have hopen := ha.opening_eq hb hr hs h
    cases b with
    | arrow τ =>
      obtain ⟨rfl, hrest⟩ := Signature.tells σ ha τ r s hb hr hs h
      exact ⟨rfl, hrest⟩
    | _ => cases hopen
  | .cls fs ms, ha => fun b r s hb hr hs h => by
    have hopen := ha.opening_eq hb hr hs h
    cases b with
    | cls gs ns =>
      obtain ⟨hfs, hms⟩ := Ty.named_cls.mp ha
      obtain ⟨hgs, hns⟩ := Ty.named_cls.mp hb
      rw [Ty.toList_cls, Ty.toList_cls] at h
      obtain ⟨rfl, hmethods⟩ := Tells.items closesItems_paren (fun _ => Ty.Named.begins)
        (fun a ha => ⟨hfs a ha, Ty.tellsAll fs a ha (hfs a ha)⟩) hgs
        (List.append_cancel_left (List.append_cancel_left h))
      obtain ⟨rfl, hrest⟩ := Tells.items closesItems_curly (fun s _ => s.begins.mono fun d hd => by rw [hd]; decide)
        (fun a ha => ⟨hms a ha, Signature.tellsAll ms a ha (hms a ha)⟩) hns
        (List.append_cancel_left hmethods)
      exact ⟨rfl, hrest⟩
    | _ => cases hopen

/-- The text of a signature tells the signature. -/
theorem Signature.tells : ∀ σ : Signature, σ.Named → Tells Signature.Named Signature.text σ
  | ⟨ps, t⟩, hσ => by
    rintro ⟨qs, u⟩ r s hτ hr hs h
    obtain ⟨hps, ht⟩ := Signature.named_iff.mp hσ
    obtain ⟨hqs, hu⟩ := Signature.named_iff.mp hτ
    rw [Signature.toList_text, Signature.toList_text] at h
    obtain ⟨rfl, hresult⟩ := Tells.items closesItems_paren (fun _ => Ty.Named.begins)
      (fun a ha => ⟨hps a ha, Ty.tellsAll ps a ha (hps a ha)⟩) hqs (List.append_cancel_left h)
    obtain ⟨rfl, hrest⟩ := Ty.tells t ht u r s hu hr hs (List.append_cancel_left hresult)
    exact ⟨rfl, hrest⟩

theorem Ty.tellsAll : ∀ ts : List Ty, ∀ t ∈ ts, t.Named → Tells Ty.Named Ty.text t
  | [] => nofun
  | t :: ts => List.forall_mem_cons.mpr ⟨Ty.tells t, Ty.tellsAll ts⟩

theorem Signature.tellsAll : ∀ ss : List Signature, ∀ s ∈ ss, s.Named → Tells Signature.Named Signature.text s
  | [] => nofun
  | s :: ss => List.forall_mem_cons.mpr ⟨Signature.tells s, Signature.tellsAll ss⟩

end

theorem Ty.Named.text_inj {a b : Ty} (ha : a.Named) (hb : b.Named) (h : a.text = b.text) : a = b :=
  (a.tells ha b [] [] hb endsName_nil endsName_nil (by rw [h])).1

end FoolLang
