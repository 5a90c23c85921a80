/-
Tokens that are written down with blanks between them are read back: a blank ends every token, so no token reaches
into the next, and no mark becomes a longer one or a comment.
-/
import FoolLang.Proofs.Token.Accounts

namespace FoolLang

variable {v rest : List Char} {c : Char} {k : Kind} {line : UInt32}

/-! ## One token -/

/-- A text that is written for a token of some kind. -/
inductive Spells : Kind → String → Prop
  | keyword {k : Kind} {word : String} (h : (word, k) ∈ Kind.keywords) : Spells k word
  | identifier {word : String} (h : Text.isName word.toList = true) (hk : ∀ k, (word, k) ∉ Kind.keywords) :
    Spells .identifier word
  | number {word : String} (h : IsNumber word.toList) : Spells .number word
  | mark {k : Kind} {word : String} (h : (word, k) ∈ Kind.marks) : Spells k word

/-- Some blanks. -/
def IsBlanks (s : String) : Prop := s.toList.all Text.isBlank = true

/-- What has no blank in it does not reach behind a text that a blank or the end follows. -/
theorem prefix_of_blank {w : List Char} (hrest : ∀ c ∈ rest.head?, Text.isBlank c = true) (hw : w <+: v ++ rest)
    (hink : ∀ c ∈ w, Text.isBlank c = false) : w <+: v := by
  rcases List.prefix_or_prefix_of_prefix hw (List.prefix_append v rest) with h | ⟨u, rfl⟩
  · exact h
  · cases u with
    | nil => simp
    | cons d u =>
      obtain ⟨t, rfl⟩ := List.prefix_append_right_inj v |>.mp hw
      have hblank := hrest d rfl
      rw [hink d (List.mem_append_right _ List.mem_cons_self)] at hblank
      cases hblank

theorem longest_of_blank {p : List Char → Prop} (hrest : ∀ c ∈ rest.head?, Text.isBlank c = true) (hv : p v)
    (hp : ∀ w, p w → ∀ c ∈ w, Text.isBlank c = false) : Longest p v rest :=
  ⟨hv, fun w hw hpw => prefix_of_blank hrest hw (hp w hpw)⟩

/-- What is written for a token is that token, where a blank or the end follows. -/
theorem Spells.lexeme {word : String} (h : Spells k word) (hrest : ∀ c ∈ rest.head?, Text.isBlank c = true) :
    Lexeme word.toList rest k := by
  have hname : Text.isName word.toList = true → Longest (Text.isName · = true) word.toList rest := fun hv =>
    longest_of_blank hrest hv fun w hw c hc => not_isBlank_of_isNameRest (Text.isNameRest_of_isName hw c hc)
  cases h with
  | keyword hk =>
    have hkeywords : ∀ x ∈ Kind.keywords, Text.isName x.1.toList = true := by decide
    exact .keyword (hname (hkeywords _ hk)) (by rwa [String.ofList_toList])
  | identifier hv hk => exact .identifier (hname hv) (by rwa [String.ofList_toList])
  | number hv =>
    refine .number (longest_of_blank hrest hv fun w hw c hc => ?_)
    exact not_isBlank_of_isNameRest (Text.isNameRest_of_isDigit (hw.2 c hc))
  | mark hk =>
    have hk' : (String.ofList word.toList, k) ∈ Kind.marks := by rwa [String.ofList_toList]
    refine .mark (longest_of_blank hrest ⟨k, hk'⟩ fun w hw c hc => (hw.sharp.2 c hc).2) hk' fun hc => ?_
    -- A slash is a mark of its own, and a blank goes on with no comment.
    have hslash : ∀ x ∈ Kind.marks, x.1.toList.head? = some '/' → x.1.toList = ['/'] := by decide
    obtain ⟨t, ht⟩ := hc.slash
    obtain ⟨d, s, hd, -⟩ := IsMark.begins ⟨k, hk'⟩
    have hword : word.toList = ['/'] := hslash _ hk (by
      rw [hd] at ht ⊢
      cases ht
      rfl)
    rw [hword] at hc
    rcases hc with ⟨t, ht⟩ | ⟨t, ht, -⟩
    · exact absurd (hrest '/' (by cases ht; rfl)) (by decide)
    · exact absurd (hrest '*' (by cases ht; rfl)) (by decide)

/-- A token is written as it was read. -/
theorem Lexeme.spells (h : Lexeme v rest k) : Spells k (String.ofList v) := by
  cases h with
  | keyword _ hk => exact .keyword hk
  | identifier hv hk => exact .identifier (by rw [String.toList_ofList]; exact hv.1) hk
  | number hv => exact .number (by rw [String.toList_ofList]; exact hv.1)
  | mark _ hk _ => exact .mark hk

/-! ## Tokens with blanks between them -/

namespace Token

/-- The kind and the text of a token. -/
def pair (t : Token) : Kind × String := (t.kind, t.value)

/-- The text of some tokens, each with the blanks behind it. -/
def written (items : List ((Kind × String) × String)) : String := .join (items.map fun x => x.1.2 ++ x.2)

theorem toList_written_cons (x : (Kind × String) × String) (items : List ((Kind × String) × String)) :
    (written (x :: items)).toList = x.1.2.toList ++ (x.2.toList ++ (written items).toList) := by
  simp [written]

theorem scan_written : ∀ (items : List ((Kind × String) × String)) (line : UInt32), (∀ x ∈ items, Spells x.1.1 x.1.2) →
    (∀ x ∈ items, IsBlanks x.2) → (∀ x ∈ items.dropLast, x.2 ≠ "") → ∃ ts, scan (written items).toList line = .ok ts ∧
      ts.map pair = items.map (·.1) ++ [(.eof, "EOF")]
  | [], line, _, _, _ => by
    refine ⟨[atEnd line.toNat], ?_, rfl⟩
    rw [written, List.map_nil, String.join_nil, String.toList_empty, scan]
  | ((k, word), blanks) :: items, line, hspells, hblanks, hsep => by
    obtain ⟨hspell, hspells⟩ := List.forall_mem_cons.mp hspells
    obtain ⟨hblank, hblanks⟩ := List.forall_mem_cons.mp hblanks
    have hrest : ∀ c ∈ (blanks.toList ++ (written items).toList).head?, Text.isBlank c = true := by
      intro c hc
      cases hb : blanks.toList with
      | cons d s =>
        rw [hb] at hc
        cases hc
        exact List.all_eq_true.mp hblank c (by simp [hb])
      | nil =>
        -- Only the last token may have no blanks behind it.
        cases items with
        | nil => simp [hb, written] at hc
        | cons y items => exact absurd (String.toList_eq_nil_iff.mp hb) (hsep _ List.mem_cons_self)
    have hsep : ∀ x ∈ items.dropLast, x.2 ≠ "" := fun x hx => hsep x (by
      cases items with
      | nil => cases hx
      | cons y items => exact List.mem_cons_of_mem _ hx)
    obtain ⟨ts, hts, hpairs⟩ := scan_written items (lineBehind (lineBehind line word.toList) blanks.toList)
      hspells hblanks hsep
    refine ⟨⟨k, word, line.toNat⟩ :: ts, ?_, by simp [pair, hpairs]⟩
    rw [toList_written_cons, scan_lexeme (hspell.lexeme hrest), scan_gap (.of_blanks (List.all_eq_true.mp hblank)), hts,
      String.ofList_toList]
    rfl

theorem ofSource_separated (front : String) (items : List ((Kind × String) × String)) (hfront : IsBlanks front)
    (hspells : ∀ x ∈ items, Spells x.1.1 x.1.2) (hblanks : ∀ x ∈ items, IsBlanks x.2)
    (hsep : ∀ x ∈ items.dropLast, x.2 ≠ "") : ∃ ts, ofSource (front ++ written items) = .ok ts ∧
      ts.map pair = items.map (·.1) ++ [(.eof, "EOF")] := by
  obtain ⟨ts, hts, hpairs⟩ := scan_written items (lineBehind 1 front.toList) hspells hblanks hsep
  exact ⟨ts, by rw [ofSource, String.toList_append, scan_gap (.of_blanks (List.all_eq_true.mp hfront)), hts], hpairs⟩

/-! ## Words with single blanks between them -/

theorem written_spaced (last : Kind × String) : ∀ init : List (Kind × String),
    written (init.map (·, " ") ++ [(last, "")]) = " ".intercalate (init.map (·.2) ++ [last.2])
  | [] => by simp [written, String.intercalate_singleton]
  | x :: init => by
    have hinit := congrArg String.toList (written_spaced last init)
    refine String.toList_injective ?_
    rw [List.map_cons, List.cons_append, toList_written_cons, hinit]
    cases init <;> simp [String.toList_intercalate]

/-- Words with single blanks between them are read back. -/
theorem ofSource_spaced {pairs : List (Kind × String)} (h : ∀ x ∈ pairs, Spells x.1 x.2) :
    ∃ ts, ofSource (" ".intercalate (pairs.map (·.2))) = .ok ts ∧ ts.map pair = pairs ++ [(.eof, "EOF")] := by
  have hempty : IsBlanks "" := by unfold IsBlanks; decide
  have hone : IsBlanks " " := by unfold IsBlanks; decide
  rcases List.eq_nil_or_concat pairs with rfl | ⟨init, last, rfl⟩
  · exact ofSource_separated "" [] hempty nofun nofun nofun
  rw [List.concat_eq_append] at h ⊢
  have hitems : (init.map (·, " ") ++ [(last, "")]).map (·.1) = init ++ [last] := by simp [Function.comp_def]
  have hspells : ∀ x ∈ init.map (·, " ") ++ [(last, "")], Spells x.1.1 x.1.2 := fun x hx =>
    h x.1 (hitems ▸ List.mem_map_of_mem hx)
  have hblanks : ∀ x ∈ init.map (·, " ") ++ [(last, "")], IsBlanks x.2 := by
    intro x hx
    rcases List.mem_append.mp hx with hx | hx
    · obtain ⟨y, -, rfl⟩ := List.mem_map.mp hx
      exact hone
    · obtain rfl := List.mem_singleton.mp hx
      exact hempty
  have hsep : ∀ x ∈ (init.map (·, " ") ++ [(last, "")]).dropLast, x.2 ≠ "" := by
    rw [List.dropLast_concat]
    intro x hx
    obtain ⟨y, -, rfl⟩ := List.mem_map.mp hx
    simp
  obtain ⟨ts, hts, hpairs⟩ := ofSource_separated "" _ hempty hspells hblanks hsep
  rw [written_spaced, String.empty_append] at hts
  exact ⟨ts, by simpa using hts, by rw [hpairs, hitems]⟩

/-- The tokens of a text are written as they were read. -/
theorem Account.spells {parts : List (List Char × Token)} (h : Account line parts rest) :
    ∀ x ∈ parts.map (·.2.pair), Spells x.1 x.2 := by
  intro x hx
  obtain ⟨⟨g, t⟩, hmem, rfl⟩ := List.mem_map.mp hx
  obtain ⟨front, back, rfl⟩ := List.append_of_mem hmem
  obtain ⟨-, htoken, -⟩ := h front g t back rfl
  simpa [pair] using htoken.spells

/--
Tokens written down with blanks between them are read back, whatever the blanks are; so the tokens of any text are
those of their words with single blanks between them.
-/
theorem ofSource_written :
    (∀ (front : String) (items : List ((Kind × String) × String)), IsBlanks front → (∀ x ∈ items, Spells x.1.1 x.1.2) →
      (∀ x ∈ items, IsBlanks x.2) → (∀ x ∈ items.dropLast, x.2 ≠ "") →
      ∃ ts, ofSource (front ++ written items) = .ok ts ∧ ts.map pair = items.map (·.1) ++ [(.eof, "EOF")]) ∧
    ∀ source ts, ofSource source = .ok ts → ∃ ts', ofSource (" ".intercalate (ts.dropLast.map (·.value))) = .ok ts' ∧
      ts'.map pair = ts.map pair := by
  constructor
  · exact ofSource_separated
  · intro source ts h
    obtain ⟨parts, gap, -, haccount, -, rfl⟩ := scan_eq_ok.mp h
    obtain ⟨ts', hts', hpairs⟩ := ofSource_spaced haccount.spells
    refine ⟨ts', ?_, ?_⟩
    · simpa [List.map_map, Function.comp_def, pair] using hts'
    · simpa [List.map_map, Function.comp_def, pair, atEnd] using hpairs

theorem ofSource_written_short :
    (∃ ts, ofSource ("\t" ++ written [((.slash, "/"), " "), ((.slash, "/"), "\n"), ((.star, "*"), "\u2003"),
        ((.assignment, "="), "\r\n"), ((.assignment, "="), " "), ((.number, "007"), " "), ((.identifier, "ifs"), "")]) =
        .ok ts ∧ ts.map pair = [(.slash, "/"), (.slash, "/"), (.star, "*"), (.assignment, "="), (.assignment, "="),
          (.number, "007"), (.identifier, "ifs"), (.eof, "EOF")]) ∧
    ∃ ts, ofSource (" ".intercalate ["a", "-", "if"]) = .ok ts ∧
      ts.map pair = [(.identifier, "a"), (.dash, "-"), (.kwIf, "if"), (.eof, "EOF")] := by
  constructor
  · refine ofSource_written.1 "\t" _ (by unfold IsBlanks; decide) ?_ (by unfold IsBlanks; decide) (by decide)
    have hword : ∀ k, ("ifs", k) ∉ Kind.keywords := by
      have hkeywords : ∀ x ∈ Kind.keywords, x.1 ≠ "ifs" := by decide
      exact fun k hk => hkeywords _ hk rfl
    simp only [List.forall_mem_cons]
    exact ⟨.mark (by decide), .mark (by decide), .mark (by decide), .mark (by decide), .mark (by decide),
      .number ⟨by decide, List.all_eq_true.mp (by decide)⟩, .identifier (by decide) hword, nofun⟩
  · exact ofSource_written.2 "a-if//b" [⟨.identifier, "a", 1⟩, ⟨.dash, "-", 1⟩, ⟨.kwIf, "if", 1⟩, atEnd 1]
      (by decide +kernel)

end Token

end FoolLang
