/-
The pieces of program text, told without the rules that find them: what a gap between two tokens is made of, which
texts are tokens where they stand, and where none begins. The first rule that fits finds just these.
-/
import FoolLang.Proofs.Text.Spelling
import FoolLang.Token.Scan
import Mathlib.Data.List.TakeWhile

namespace FoolLang

variable {c d : Char} {s t u v w rest rest' : List Char} {k k' : Kind}

/-! ## Gaps and lexemes -/

/-- A text goes through the first mark that closes a comment, told up to that mark. -/
def ClosesFirst (body : List Char) : Prop := ¬ ['*', '/'] <:+: body ++ ['*']

/-- A gap in front of some text: blanks, closed block comments, and line comments up to the end of the line. -/
inductive Gap (rest : List Char) : List Char → Prop
  | nil : Gap rest []
  | blank {c : Char} {s : List Char} (hc : Text.isBlank c = true) (hs : Gap rest s) : Gap rest (c :: s)
  | block {body s : List Char} (hbody : ClosesFirst body) (hs : Gap rest s) :
    Gap rest ('/' :: '*' :: (body ++ '*' :: '/' :: s))
  | line {text s : List Char} (htext : '\n' ∉ text) (hend : ∀ c ∈ (s ++ rest).head?, c = '\n') (hs : Gap rest s) :
    Gap rest ('/' :: '/' :: (text ++ s))

/-- A line comment or a closed block comment begins here. -/
def BeginsComment (s : List Char) : Prop := ['/', '/'] <+: s ∨ ∃ s', s = '/' :: '*' :: s' ∧ ['*', '/'] <:+: s'

/-- The longest text of its sort at the front of the text that it begins. -/
def Longest (p : List Char → Prop) (v rest : List Char) : Prop := p v ∧ ∀ w, w <+: v ++ rest → p w → w <+: v

/-- Some digits. -/
def IsNumber (v : List Char) : Prop := v ≠ [] ∧ ∀ c ∈ v, c.isDigit = true

/-- The text of an operator or of punctuation. -/
def IsMark (v : List Char) : Prop := ∃ k, (String.ofList v, k) ∈ Kind.marks

/-- A token of some kind with some text stands in front of some more. -/
inductive Lexeme (v rest : List Char) : Kind → Prop
  | keyword {k : Kind} (hv : Longest (Text.isName · = true) v rest) (hk : (String.ofList v, k) ∈ Kind.keywords) :
    Lexeme v rest k
  | identifier (hv : Longest (Text.isName · = true) v rest) (hk : ∀ k, (String.ofList v, k) ∉ Kind.keywords) :
    Lexeme v rest .identifier
  | number (hv : Longest IsNumber v rest) : Lexeme v rest .number
  | mark {k : Kind} (hv : Longest IsMark v rest) (hk : (String.ofList v, k) ∈ Kind.marks)
    (hc : ¬ BeginsComment (v ++ rest)) : Lexeme v rest k

/-- A text begins with no token, no blank and no comment. -/
structure BeginsNothing (s : List Char) : Prop where
  blank : ∀ c ∈ s.head?, Text.isBlank c = false
  comment : ¬ BeginsComment s
  lexeme : ∀ v rest k, s = v ++ rest → ¬ Lexeme v rest k

/-! ## Longest texts -/

theorem Longest.unique {p : List Char → Prop} (h : Longest p v rest) (h' : Longest p w rest')
    (he : v ++ rest = w ++ rest') : v = w := by
  have hw : w <+: v := h.2 w (by rw [he]; exact List.prefix_append w rest') h'.1
  have hv : v <+: w := h'.2 v (by rw [← he]; exact List.prefix_append v rest) h.1
  exact hv.eq_of_length_le hw.length_le

/-- A text whose characters pass a test begins within the longest run of characters that pass it. -/
theorem prefix_takeWhile {q : Char → Bool} : ∀ {w s : List Char}, w <+: s → (∀ c ∈ w, q c = true) → w <+: s.takeWhile q
  | [], _, _, _ => List.nil_prefix
  | c :: w, [], h, _ => absurd (List.prefix_nil.mp h) (List.cons_ne_nil c w)
  | c :: w, d :: s, h, hq => by
    obtain ⟨rfl, hw⟩ := List.cons_prefix_cons.mp h
    obtain ⟨hc, hq⟩ := List.forall_mem_cons.mp hq
    rw [List.takeWhile_cons_of_pos hc]
    exact List.cons_prefix_cons.mpr ⟨rfl, prefix_takeWhile hw hq⟩

theorem longest_takeWhile {p : List Char → Prop} {q : Char → Bool} (hp : ∀ w, p w → ∀ c ∈ w, q c = true)
    (hv : p (s.takeWhile q)) : Longest p (s.takeWhile q) (s.dropWhile q) := by
  refine ⟨hv, fun w hw hpw => ?_⟩
  rw [List.takeWhile_append_dropWhile] at hw
  exact prefix_takeWhile hw (hp w hpw)

/-! ## First characters -/

/-- A text that begins with a character of some sort. -/
def Begins (q : Char → Prop) (v : List Char) : Prop := ∃ c s, v = c :: s ∧ q c

theorem Begins.mono {q q' : Char → Prop} (h : Begins q v) (hq : ∀ c, q c → q' c) : Begins q' v := by
  obtain ⟨c, s, rfl, hc⟩ := h
  exact ⟨c, s, rfl, hq c hc⟩

/-- Texts that begin with characters of different sorts do not stand at one place. -/
theorem Begins.ne {q : Char → Prop} (h : Begins q v) (h' : Begins (¬ q ·) w) : v ++ rest ≠ w ++ rest' := by
  obtain ⟨c, s, rfl, hc⟩ := h
  obtain ⟨d, t, rfl, hd⟩ := h'
  intro he
  obtain ⟨rfl, -⟩ := List.cons.inj he
  exact hd hc

theorem isName_begins (h : Text.isName v = true) : Begins (Text.isNameStart · = true) v := by
  obtain ⟨c, s, rfl, hc, -⟩ := Text.isName_iff.mp h
  exact ⟨c, s, rfl, hc⟩

theorem IsNumber.begins (h : IsNumber v) : Begins (Char.isDigit · = true) v := by
  obtain ⟨c, s, rfl⟩ := List.exists_cons_of_ne_nil h.1
  exact ⟨c, s, rfl, h.2 c List.mem_cons_self⟩

/-- The characters of marks are of no other use. -/
theorem IsMark.sharp (h : IsMark v) : v ≠ [] ∧ ∀ c ∈ v, Text.isNameRest c = false ∧ Text.isBlank c = false := by
  obtain ⟨k, hk⟩ := h
  have hmarks : ∀ m ∈ Kind.marks, m.1.toList ≠ [] ∧
      m.1.toList.all fun c => !Text.isNameRest c && !Text.isBlank c := by decide
  simpa using hmarks _ hk

theorem IsMark.begins (h : IsMark v) : Begins (fun c => Text.isNameRest c = false ∧ Text.isBlank c = false) v := by
  obtain ⟨hne, hv⟩ := h.sharp
  obtain ⟨c, s, rfl⟩ := List.exists_cons_of_ne_nil hne
  exact ⟨c, s, rfl, hv c List.mem_cons_self⟩

theorem isNameRest_of_isNameStart (h : Text.isNameStart c = true) : Text.isNameRest c = true :=
  Text.isNameRest_of_isName (s := [c]) (by simp [Text.isName, h]) c List.mem_cons_self

theorem not_isNameRest (h : Text.isNameRest c = false) : Text.isNameStart c = false ∧ c.isDigit = false := by
  constructor
  · exact Bool.eq_false_iff.mpr fun hs => by simp [isNameRest_of_isNameStart hs] at h
  · exact Bool.eq_false_iff.mpr fun hd => by simp [Text.isNameRest_of_isDigit hd] at h

theorem not_isBlank_of_isNameRest (h : Text.isNameRest c = true) : Text.isBlank c = false :=
  (Text.isInk_of_isNameRest h).not_blank

theorem Lexeme.begins (h : Lexeme v rest k) : Begins (Text.isBlank · = false) v := by
  cases h with
  | keyword hv _ | identifier hv _ =>
    exact (isName_begins hv.1).mono fun c hc => not_isBlank_of_isNameRest (isNameRest_of_isNameStart hc)
  | number hv => exact hv.1.begins.mono fun c hc => not_isBlank_of_isNameRest (Text.isNameRest_of_isDigit hc)
  | mark hv _ _ => exact hv.1.begins.mono fun c hc => hc.2

/-- A token has a text without blanks. -/
theorem Lexeme.solid {rest : List Char} {k : Kind} (h : Lexeme v rest k) :
    v ≠ [] ∧ ∀ c ∈ v, Text.isBlank c = false := by
  have hne : v ≠ [] := by
    obtain ⟨c, w, rfl, -⟩ := h.begins
    exact List.cons_ne_nil c w
  refine ⟨hne, fun c hc => ?_⟩
  cases h with
  | keyword hv _ | identifier hv _ => exact not_isBlank_of_isNameRest (Text.isNameRest_of_isName hv.1 c hc)
  | number hv => exact not_isBlank_of_isNameRest (Text.isNameRest_of_isDigit (hv.1.2 c hc))
  | mark hv _ _ => exact (hv.1.sharp.2 c hc).2

/-- The end of a program is no token of a text. -/
theorem Lexeme.ne_eof {rest : List Char} {k : Kind} (h : Lexeme v rest k) : k ≠ .eof := by
  have hkeywords : ∀ m ∈ Kind.keywords, m.2 ≠ .eof := by decide
  have hmarks : ∀ m ∈ Kind.marks, m.2 ≠ .eof := by decide
  cases h with
  | keyword _ hk => exact hkeywords _ hk
  | identifier | number => decide
  | mark _ hk _ => exact hmarks _ hk

/-! ## At most one token stands at a place -/

theorem isName_ne (hv : Text.isName v = true) (hw : IsNumber w ∨ IsMark w) : v ++ rest ≠ w ++ rest' := by
  refine (isName_begins hv).ne ?_
  rcases hw with hw | hw
  · refine hw.begins.mono fun c hc hs => ?_
    rw [(Text.not_isDigit_of_isNameStart hs).1] at hc
    cases hc
  · refine hw.begins.mono fun c hc hs => ?_
    rw [isNameRest_of_isNameStart hs] at hc
    cases hc.1

theorem IsNumber.ne (hv : IsNumber v) (hw : IsMark w) : v ++ rest ≠ w ++ rest' := by
  refine hv.begins.ne (hw.begins.mono fun c hc hd => ?_)
  rw [Text.isNameRest_of_isDigit hd] at hc
  cases hc.1

/-- A token is the longest text of its sort where it stands, and its text tells its kind. -/
theorem Lexeme.sorts (h : Lexeme v rest k) :
    (Longest (Text.isName · = true) v rest ∧ k = Kind.ofWord (String.ofList v)) ∨
    (Longest IsNumber v rest ∧ k = .number) ∨
    (Longest IsMark v rest ∧ Kind.marks.lookup (String.ofList v) = some k ∧ ¬ BeginsComment (v ++ rest)) := by
  cases h with
  | keyword hv hk =>
    have hkeywords : ∀ x ∈ Kind.keywords, x.2 = Kind.ofWord x.1 := by decide
    exact .inl ⟨hv, hkeywords _ hk⟩
  | identifier hv hk =>
    have hnone : Kind.ofKeyword? (String.ofList v) = none := by
      refine List.lookup_eq_none_iff.mpr fun x hx => ?_
      simpa using fun heq : String.ofList v = x.1 => hk x.2 (heq ▸ hx)
    exact .inl ⟨hv, by rw [Kind.ofWord, hnone]; rfl⟩
  | number hv => exact .inr (.inl ⟨hv, rfl⟩)
  | mark hv hk hc =>
    have hmarks : ∀ x ∈ Kind.marks, Kind.marks.lookup x.1 = some x.2 := by decide
    exact .inr (.inr ⟨hv, hmarks _ hk, hc⟩)

theorem Lexeme.unique (h : Lexeme v rest k) (h' : Lexeme w rest' k') (he : v ++ rest = w ++ rest') :
    v = w ∧ k = k' := by
  rcases h.sorts with ⟨hv, rfl⟩ | ⟨hv, rfl⟩ | ⟨hv, hk, -⟩ <;>
    rcases h'.sorts with ⟨hw, rfl⟩ | ⟨hw, rfl⟩ | ⟨hw, hk', -⟩
  · obtain rfl := hv.unique hw he
    exact ⟨rfl, rfl⟩
  · exact absurd he (isName_ne hv.1 (.inl hw.1))
  · exact absurd he (isName_ne hv.1 (.inr hw.1))
  · exact absurd he.symm (isName_ne hw.1 (.inl hv.1))
  · exact ⟨hv.unique hw he, rfl⟩
  · exact absurd he (hv.1.ne hw.1)
  · exact absurd he.symm (isName_ne hw.1 (.inr hv.1))
  · exact absurd he.symm (hw.1.ne hv.1)
  · obtain rfl := hv.unique hw he
    exact ⟨rfl, Option.some.inj (hk.symm.trans hk')⟩

theorem Lexeme.of_word (h : Longest (Text.isName · = true) v rest) : Lexeme v rest (Kind.ofWord (String.ofList v)) := by
  unfold Kind.ofWord
  cases hk : Kind.ofKeyword? (String.ofList v) with
  | none =>
    refine .identifier h fun k hmem => ?_
    simpa using List.lookup_eq_none_iff.mp hk _ hmem
  | some k =>
    obtain ⟨before, behind, he, -⟩ := List.lookup_eq_some_iff.mp hk
    exact .keyword h (by rw [he, Option.getD_some]; exact List.mem_append_right _ List.mem_cons_self)

/-! ## Comments -/

/-- A slash is the only mark that may begin like a comment. -/
theorem BeginsComment.slash (h : BeginsComment s) : ∃ t, s = '/' :: t := by
  rcases h with ⟨t, rfl⟩ | ⟨t, rfl, -⟩
  · exact ⟨'/' :: t, rfl⟩
  · exact ⟨'*' :: t, rfl⟩

theorem closesFirst_cons {body : List Char} :
    ClosesFirst (c :: body) ↔ ¬ ['*', '/'] <+: c :: (body ++ ['*']) ∧ ClosesFirst body := by
  rw [ClosesFirst, List.cons_append, List.infix_cons_iff, not_or, ClosesFirst]

/-- Whether a comment closes at its first character depends on no more than its text and a star. -/
theorem closes_now {body : List Char} :
    ['*', '/'] <+: c :: (body ++ ['*']) ↔ ['*', '/'] <+: c :: (body ++ '*' :: '/' :: rest) := by
  cases body <;> simp

/-- A text with a mark that closes a comment has a first one. -/
theorem exists_closesFirst : ∀ {s : List Char}, ['*', '/'] <:+: s →
    ∃ body rest, s = body ++ '*' :: '/' :: rest ∧ ClosesFirst body
  | [], h => by simp at h
  | c :: s, h => by
    by_cases hnow : ['*', '/'] <+: c :: s
    · obtain ⟨rest, hrest⟩ := hnow
      exact ⟨[], rest, hrest.symm, by unfold ClosesFirst; decide⟩
    · obtain ⟨body, rest, rfl, hbody⟩ := exists_closesFirst ((List.infix_cons_iff.mp h).resolve_left hnow)
      refine ⟨c :: body, rest, rfl, closesFirst_cons.mpr ⟨fun hpre => hnow (closes_now.mp hpre), hbody⟩⟩

theorem Gap.of_blanks : ∀ {g : List Char}, (∀ c ∈ g, Text.isBlank c = true) → Gap rest g
  | [], _ => .nil
  | _ :: _, h => .blank (h _ List.mem_cons_self) (.of_blanks fun c hc => h c (List.mem_cons_of_mem _ hc))

theorem Gap.begins {g : List Char} (h : Gap rest g) (hg : g ≠ []) :
    Begins (Text.isBlank · = true) g ∨ BeginsComment (g ++ rest) := by
  cases h with
  | nil => exact absurd rfl hg
  | @blank c s hc _ => exact .inl ⟨c, s, rfl, hc⟩
  | @block body s _ _ => exact .inr (.inr ⟨_, rfl, body, s ++ rest, by simp⟩)
  | @line text s _ _ _ => exact .inr (.inl (List.prefix_append ['/', '/'] (text ++ s ++ rest)))

theorem Lexeme.not_comment (h : Lexeme v rest k) : ¬ BeginsComment (v ++ rest) := by
  intro hc
  obtain ⟨t, ht⟩ := hc.slash
  have hslash : ∀ {q : Char → Prop}, Begins q v → q '/' := by
    rintro q ⟨c, s, rfl, hq⟩
    obtain ⟨rfl, -⟩ := List.cons.inj ht
    exact hq
  rcases h.sorts with ⟨hv, -⟩ | ⟨hv, -⟩ | ⟨-, -, hno⟩
  · exact absurd (hslash (isName_begins hv.1)) (by decide)
  · exact absurd (hslash hv.1.begins) (by decide)
  · exact hno hc

namespace Piece

theorem throughClose?_cons (h : ¬ ['*', '/'] <+: c :: s) : throughClose? (c :: s) = (throughClose? s).map (c :: ·) := by
  rw [throughClose?]
  rintro t rfl rfl
  exact h (List.prefix_append ['*', '/'] t)

theorem throughClose?_of_closesFirst : ∀ {body : List Char}, ClosesFirst body →
    throughClose? (body ++ '*' :: '/' :: rest) = some (body ++ ['*', '/'])
  | [], _ => rfl
  | c :: body, h => by
    obtain ⟨hpre, hbody⟩ := closesFirst_cons.mp h
    rw [List.cons_append, throughClose?_cons, throughClose?_of_closesFirst hbody]
    · rfl
    · exact fun hnow => hpre (closes_now.mpr hnow)

theorem throughClose?_eq_none : ∀ {s : List Char}, ¬ ['*', '/'] <:+: s → throughClose? s = none
  | [], _ => rfl
  | c :: s, h => by
    rw [List.infix_cons_iff, not_or] at h
    rw [throughClose?_cons h.1, throughClose?_eq_none h.2]
    rfl

/-! ## The piece at the front -/

theorem first?_of_isNameStart (hc : Text.isNameStart c = true) : first? (c :: s) =
    some ⟨c, s.takeWhile Text.isNameRest, some (Kind.ofWord (String.ofList (c :: s.takeWhile Text.isNameRest)))⟩ := by
  simp [first?, word?, hc]

theorem first?_of_isDigit (hc : c.isDigit = true) :
    first? (c :: s) = some ⟨c, s.takeWhile Char.isDigit, some .number⟩ := by
  have hstart : Text.isNameStart c = false :=
    Bool.eq_false_iff.mpr fun hs => by simp [(Text.not_isDigit_of_isNameStart hs).1] at hc
  simp [first?, word?, hstart, number?, ofChars?, hc]

theorem first?_of_isBlank (hc : Text.isBlank c = true) :
    first? (c :: s) = some ⟨c, s.takeWhile Text.isBlank, none⟩ := by
  have hrest : Text.isNameRest c = false :=
    Bool.eq_false_iff.mpr fun hr => by simp [not_isBlank_of_isNameRest hr] at hc
  obtain ⟨hstart, hdigit⟩ := not_isNameRest hrest
  simp [first?, word?, hstart, number?, hdigit, blanks?, ofChars?, hc]

theorem first?_of_marks (hs : Text.isNameStart c = false) (hd : c.isDigit = false) (hb : Text.isBlank c = false) :
    first? (c :: s) = (blockComment? (c :: s) <|> lineComment? (c :: s) <|> mark? (c :: s)) := by
  simp [first?, word?, hs, number?, hd, blanks?, ofChars?, hb]

/-- The mark found is the longest one that fits, for none stands in the table behind one that it goes on from. -/
theorem mark?_eq_some {p : Piece} (h : mark? s = some p) : ∃ rest k, s = p.chars ++ rest ∧ p.kind? = some k ∧
    Longest IsMark p.chars rest ∧ (String.ofList p.chars, k) ∈ Kind.marks := by
  unfold mark? at h
  split at h
  · next spelling k hfind =>
    obtain ⟨hpre, before, behind, htable, hbefore⟩ := List.find?_eq_some_iff_append.mp hfind
    obtain ⟨rest, rfl⟩ := List.isPrefixOf_iff_prefix.mp hpre
    have hmem : (spelling, k) ∈ Kind.marks := by rw [htable]; exact List.mem_append_right _ List.mem_cons_self
    have hp : p.chars = spelling.toList ∧ p.kind? = some k := by
      cases hs : spelling.toList with
      | nil => rw [hs] at h; cases h
      | cons c s => rw [hs] at h; cases h; exact ⟨rfl, rfl⟩
    have htext : String.ofList p.chars = spelling := by rw [hp.1, String.ofList_toList]
    refine ⟨rest, k, by rw [hp.1], hp.2, ⟨⟨k, htext ▸ hmem⟩, fun w hw ⟨j, hj⟩ => ?_⟩, htext ▸ hmem⟩
    rw [hp.1] at hw ⊢
    have horder : Kind.marks.Pairwise fun a b => ¬ a.1.toList <+: b.1.toList := by decide
    rw [htable] at hj horder
    rcases List.mem_append.mp hj with hj | hj
    · -- A mark before the one found does not fit.
      have hno := hbefore _ hj
      rw [String.toList_ofList, List.isPrefixOf_iff_prefix.mpr hw] at hno
      cases hno
    · rcases List.mem_cons.mp hj with heq | hj
      · cases heq
        exact ⟨[], by simp⟩
      · have hbehind := (List.pairwise_cons.mp (List.pairwise_append.mp horder).2.1).1 _ hj
        rw [String.toList_ofList] at hbehind
        exact (List.prefix_or_prefix_of_prefix hw (List.prefix_append _ rest)).resolve_right hbehind
  · cases h

theorem mark?_eq_none (h : mark? s = none) (hw : w <+: s) : ¬ IsMark w := by
  rintro ⟨k, hk⟩
  have hnonempty : ∀ m ∈ Kind.marks, m.1.toList ≠ [] := by decide
  unfold mark? at h
  split at h
  · next spelling j hfind =>
    obtain ⟨c, t, hc⟩ := List.exists_cons_of_ne_nil (hnonempty _ (List.mem_of_find?_eq_some hfind))
    rw [hc] at h
    cases h
  · next hfind =>
    refine List.find?_eq_none.mp hfind _ hk ?_
    rw [String.toList_ofList]
    exact List.isPrefixOf_iff_prefix.mpr hw

theorem first?_of_block {body : List Char} (h : ClosesFirst body) :
    first? ('/' :: '*' :: (body ++ '*' :: '/' :: s)) = some ⟨'/', '*' :: (body ++ ['*', '/']), none⟩ := by
  rw [first?_of_marks (by decide) (by decide) (by decide), blockComment?, throughClose?_of_closesFirst h]
  rfl

theorem first?_of_line : first? ('/' :: '/' :: s) = some ⟨'/', '/' :: s.takeWhile (· != '\n'), none⟩ :=
  first?_of_marks (by decide) (by decide) (by decide)

theorem comment_of_blockComment? {p : Piece} (h : blockComment? s = some p) :
    ∃ rest, s = p.chars ++ rest ∧ p.kind? = none ∧ Gap rest p.chars := by
  unfold blockComment? at h
  split at h
  · next t =>
    obtain ⟨b, hb, rfl⟩ := Option.map_eq_some_iff.mp h
    by_cases hclosed : ['*', '/'] <:+: t
    · obtain ⟨body, rest, rfl, hbody⟩ := exists_closesFirst hclosed
      rw [throughClose?_of_closesFirst hbody] at hb
      cases hb
      exact ⟨rest, by simp [chars], rfl, .block hbody .nil⟩
    · rw [throughClose?_eq_none hclosed] at hb
      cases hb
  · cases h

theorem comment_of_lineComment? {p : Piece} (h : lineComment? s = some p) :
    ∃ rest, s = p.chars ++ rest ∧ p.kind? = none ∧ Gap rest p.chars := by
  unfold lineComment? at h
  split at h
  · next t =>
    cases h
    refine ⟨t.dropWhile (· != '\n'), by simp [chars], rfl, ?_⟩
    rw [chars, ← List.append_nil (t.takeWhile _)]
    refine .line (fun hmem => ?_) (fun c hc => ?_) .nil
    · simpa using List.mem_takeWhile_imp hmem
    · have hhead := List.head?_dropWhile_not (· != '\n') t
      rw [Option.mem_def, List.nil_append] at hc
      rw [hc] at hhead
      simpa using hhead
  · cases h

theorem not_comment (hb : blockComment? s = none) (hl : lineComment? s = none) : ¬ BeginsComment s := by
  rintro (⟨t, rfl⟩ | ⟨t, rfl, ht⟩)
  · cases hl
  · obtain ⟨body, rest, rfl, hbody⟩ := exists_closesFirst ht
    rw [blockComment?, throughClose?_of_closesFirst hbody] at hb
    cases hb

/-- What the rules find at the front of a text stands there. -/
theorem first?_eq_some {p : Piece} (h : first? s = some p) : ∃ rest, s = p.chars ++ rest ∧
    (∀ k, p.kind? = some k → Lexeme p.chars rest k) ∧ (p.kind? = none → Gap rest p.chars) := by
  cases s with
  | nil => cases h
  | cons c s =>
    by_cases hstart : Text.isNameStart c
    · rw [first?_of_isNameStart hstart] at h
      cases h
      refine ⟨s.dropWhile Text.isNameRest, by simp [chars], ?_, nofun⟩
      rintro k ⟨⟩
      refine .of_word ?_
      have hrun := longest_takeWhile (s := c :: s) (p := (Text.isName · = true)) (q := Text.isNameRest)
        fun w hw => Text.isNameRest_of_isName hw
      rw [List.takeWhile_cons_of_pos (isNameRest_of_isNameStart hstart),
        List.dropWhile_cons_of_pos (isNameRest_of_isNameStart hstart)] at hrun
      exact hrun (Text.isName_iff.mpr ⟨c, _, rfl, hstart, fun d hd => List.mem_takeWhile_imp hd⟩)
    by_cases hdigit : c.isDigit
    · rw [first?_of_isDigit hdigit] at h
      cases h
      refine ⟨s.dropWhile Char.isDigit, by simp [chars], ?_, nofun⟩
      rintro k ⟨⟩
      refine .number ?_
      have hrun := longest_takeWhile (s := c :: s) (p := IsNumber) (q := Char.isDigit) fun w hw => hw.2
      rw [List.takeWhile_cons_of_pos hdigit, List.dropWhile_cons_of_pos hdigit] at hrun
      exact hrun ⟨List.cons_ne_nil _ _, List.forall_mem_cons.mpr ⟨hdigit, fun d hd => List.mem_takeWhile_imp hd⟩⟩
    by_cases hblank : Text.isBlank c
    · rw [first?_of_isBlank hblank] at h
      cases h
      refine ⟨s.dropWhile Text.isBlank, by simp [chars], nofun, fun _ => .of_blanks ?_⟩
      exact List.forall_mem_cons.mpr ⟨hblank, fun d hd => List.mem_takeWhile_imp hd⟩
    -- What is left are the marks, after the comments that begin like one.
    rw [Bool.not_eq_true] at hstart hdigit hblank
    simp only [first?_of_marks hstart hdigit hblank, Option.orElse_eq_orElse, Option.orElse_eq_or,
      Option.or_eq_some_iff] at h
    rcases h with h | ⟨hblock, h | ⟨hline, h⟩⟩
    · obtain ⟨rest, hs, hk, hgap⟩ := comment_of_blockComment? h
      exact ⟨rest, hs, fun k hk' => by simp [hk] at hk', fun _ => hgap⟩
    · obtain ⟨rest, hs, hk, hgap⟩ := comment_of_lineComment? h
      exact ⟨rest, hs, fun k hk' => by simp [hk] at hk', fun _ => hgap⟩
    · obtain ⟨rest, k, hs, hk, hlong, hmem⟩ := mark?_eq_some h
      refine ⟨rest, hs, fun k' hk' => ?_, fun hk' => by simp [hk] at hk'⟩
      obtain rfl := Option.some.inj (hk.symm.trans hk')
      exact .mark hlong hmem (hs ▸ not_comment hblock hline)

/-- Where the rules find nothing, nothing begins. -/
theorem first?_eq_none (h : first? s = none) : BeginsNothing s := by
  cases s with
  | nil =>
    refine ⟨nofun, fun hc => ?_, fun v rest k he hv => ?_⟩
    · obtain ⟨t, ht⟩ := hc.slash
      cases ht
    · obtain ⟨c, t, rfl, -⟩ := hv.begins
      cases he
  | cons c s =>
    have hstart : Text.isNameStart c = false :=
      Bool.eq_false_iff.mpr fun hc => by simp [first?_of_isNameStart hc] at h
    have hdigit : c.isDigit = false := Bool.eq_false_iff.mpr fun hc => by simp [first?_of_isDigit hc] at h
    have hblank : Text.isBlank c = false := Bool.eq_false_iff.mpr fun hc => by simp [first?_of_isBlank hc] at h
    simp only [first?_of_marks hstart hdigit hblank, Option.orElse_eq_orElse, Option.orElse_eq_or,
      Option.or_eq_none_iff] at h
    obtain ⟨hblock, hline, hmark⟩ := h
    refine ⟨?_, not_comment hblock hline, fun v rest k he hv => ?_⟩
    · rintro d ⟨⟩
      exact hblank
    · have hhead : ∀ {q : Char → Prop}, Begins q v → q c := by
        rintro q ⟨d, t, rfl, hq⟩
        obtain ⟨rfl, -⟩ := List.cons.inj he
        exact hq
      rcases hv.sorts with ⟨hv, -⟩ | ⟨hv, -⟩ | ⟨hv, -, -⟩
      · simpa [hstart] using hhead (isName_begins hv.1)
      · simpa [hdigit] using hhead hv.1.begins
      · exact mark?_eq_none hmark (he ▸ List.prefix_append v rest) hv.1

/-- The rules find the token that stands at the front. -/
theorem first?_of_lexeme (h : Lexeme v rest k) : ∃ p, first? (v ++ rest) = some p ∧ p.chars = v ∧ p.kind? = some k := by
  cases hp : first? (v ++ rest) with
  | none => exact absurd h ((first?_eq_none hp).lexeme v rest k rfl)
  | some p =>
    obtain ⟨rest', hs, htoken, hgap⟩ := first?_eq_some hp
    cases hk : p.kind? with
    | none =>
      rcases (hgap hk).begins (List.cons_ne_nil _ _) with hblank | hc
      · exact absurd hs (h.begins.ne (hblank.mono fun c hc => by simp [hc]))
      · exact absurd (hs ▸ hc) h.not_comment
    | some k' =>
      obtain ⟨rfl, rfl⟩ := h.unique (htoken k' hk) hs
      exact ⟨p, rfl, rfl, hk⟩

/-- The rules find nothing where nothing begins. -/
theorem first?_of_nothing (h : BeginsNothing s) : first? s = none := by
  cases hp : first? s with
  | none => rfl
  | some p =>
    obtain ⟨rest, rfl, htoken, hgap⟩ := first?_eq_some hp
    cases hk : p.kind? with
    | none =>
      rcases (hgap hk).begins (List.cons_ne_nil _ _) with hblank | hc
      · obtain ⟨c, t, hpc, hc⟩ := hblank
        have hno := h.blank c (by rw [hpc]; rfl)
        rw [hc] at hno
        cases hno
      · exact absurd hc h.comment
    | some k => exact absurd (htoken k hk) (h.lexeme _ _ _ rfl)

end Piece

end FoolLang
