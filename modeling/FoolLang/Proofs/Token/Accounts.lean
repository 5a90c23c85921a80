/-
Reading accounts for every character: a text is its tokens with the gaps between them, up to its end or to a
character that begins nothing, and a token's line is told, in 32 bits, by the newlines in front of it.
-/
import FoolLang.Proofs.Token.Lexemes

namespace FoolLang

variable {s g rest v : List Char} {c : Char} {k : Kind} {t : Token} {line : UInt32} {parts : List (List Char × Token)}

/-- Gaps that follow each other are a gap. -/
theorem Gap.append {g' : List Char} (h : Gap (g' ++ rest) g) (h' : Gap rest g') : Gap rest (g ++ g') := by
  induction h with
  | nil => exact h'
  | blank hc _ ih => exact .blank hc ih
  | @block body s hbody _ ih =>
    rw [List.cons_append, List.cons_append, List.append_assoc]
    exact .block hbody ih
  | @line text s htext hend _ ih =>
    rw [List.cons_append, List.cons_append, List.append_assoc]
    exact .line htext (by rwa [List.append_assoc]) ih

namespace Token

/-! ## One piece -/

theorem scan_piece {p : Piece} (rest : List Char) (line : UInt32) (h : Piece.first? (p.chars ++ rest) = some p) :
    scan (p.chars ++ rest) line = match p.kind? with
    | some k => (scan rest (lineBehind line p.chars)).map (⟨k, p.text, line.toNat⟩ :: ·)
    | none => scan rest (lineBehind line p.chars) := by
  have hs : p.chars ++ rest = p.first :: (p.more ++ rest) := rfl
  rw [hs] at h ⊢
  rw [scan, h]
  cases hk : p.kind? with
  | some k => simp only [hk, List.drop_left]
  | none => simp only [hk, List.drop_left]

theorem scan_lexeme (h : Lexeme v rest k) :
    scan (v ++ rest) line = (scan rest (lineBehind line v)).map (⟨k, String.ofList v, line.toNat⟩ :: ·) := by
  obtain ⟨p, hp, rfl, hk⟩ := Piece.first?_of_lexeme h
  rw [scan_piece rest line hp, hk]
  rfl

theorem scan_nothing (h : BeginsNothing (c :: s)) :
    scan (c :: s) line = .error ⟨.unrecognisedToken (String.singleton c), line.toNat⟩ := by
  rw [scan, Piece.first?_of_nothing h]

theorem scan_blank (hc : Text.isBlank c = true) : scan (c :: s) line = scan s (lineBehind line [c]) := by
  have hrun : ∀ (d : Char) (s : List Char) (line : UInt32), Text.isBlank d = true → scan (d :: s) line =
      scan (s.dropWhile Text.isBlank) (lineBehind line (d :: s.takeWhile Text.isBlank)) := by
    intro d s line hd
    have hp := scan_piece (p := ⟨d, s.takeWhile Text.isBlank, none⟩) (s.dropWhile Text.isBlank) line
      (by rw [Piece.chars, List.cons_append, List.takeWhile_append_dropWhile]; exact Piece.first?_of_isBlank hd)
    rwa [Piece.chars, List.cons_append, List.takeWhile_append_dropWhile] at hp
  rw [hrun c s line hc]
  cases s with
  | nil => rfl
  | cons d s =>
    by_cases hd : Text.isBlank d
    · rw [hrun d s _ hd, List.takeWhile_cons_of_pos hd, List.dropWhile_cons_of_pos hd, ← lineBehind_append]
      rfl
    · rw [List.takeWhile_cons_of_neg hd, List.dropWhile_cons_of_neg hd]

/-- A gap is passed over and leaves its newlines. -/
theorem scan_gap (h : Gap rest g) : ∀ line, scan (g ++ rest) line = scan rest (lineBehind line g) := by
  induction h with
  | nil => exact fun line => by rw [lineBehind_nil]; rfl
  | @blank c s hc _ ih =>
    intro line
    rw [List.cons_append, scan_blank hc, ih, ← lineBehind_append]
    rfl
  | @block body s hbody _ ih =>
    intro line
    have hp := scan_piece (p := ⟨'/', '*' :: (body ++ ['*', '/']), none⟩) (s ++ rest) line
      (by simpa [Piece.chars] using Piece.first?_of_block (s := s ++ rest) hbody)
    simp only [Piece.chars, List.cons_append, List.append_assoc, List.nil_append] at hp ⊢
    rw [hp, ih, ← lineBehind_append]
    simp
  | @line text s htext hend _ ih =>
    intro line
    have htake : (text ++ (s ++ rest)).takeWhile (· != '\n') = text := by
      rw [List.takeWhile_append_of_pos fun c hc => by simpa using fun he : c = '\n' => htext (he ▸ hc)]
      cases hs : s ++ rest with
      | nil => simp
      | cons c t => simp [hend c (by rw [hs]; rfl)]
    have hp := scan_piece (p := ⟨'/', '/' :: text, none⟩) (s ++ rest) line
      (by simpa [Piece.chars, htake] using Piece.first?_of_line (s := text ++ (s ++ rest)))
    simp only [Piece.chars, List.cons_append, List.append_assoc] at hp ⊢
    rw [hp, ih, ← lineBehind_append]
    rfl

/-! ## Whole texts -/

/-- The text of some tokens, each with the gap in front of it. -/
def spread (parts : List (List Char × Token)) : List Char := parts.flatMap fun x => x.1 ++ x.2.value.toList

/--
Tokens and gaps stand in front of some more text, and the tokens say on which line they begin, counted in 32 bits.
-/
def Account (line : UInt32) (parts : List (List Char × Token)) (rest : List Char) : Prop :=
  ∀ front g t back, parts = front ++ (g, t) :: back →
    Gap (t.value.toList ++ (spread back ++ rest)) g ∧ Lexeme t.value.toList (spread back ++ rest) t.kind ∧
      t.line = (line.toNat + (spread front ++ g).count '\n') % UInt32.size

@[simp] theorem spread_nil : spread [] = [] := rfl

@[simp] theorem spread_cons (x : List Char × Token) (parts : List (List Char × Token)) :
    spread (x :: parts) = x.1 ++ (x.2.value.toList ++ spread parts) := by
  simp [spread]

theorem account_cons : Account line ((g, t) :: parts) rest ↔
    (Gap (t.value.toList ++ (spread parts ++ rest)) g ∧ Lexeme t.value.toList (spread parts ++ rest) t.kind ∧
      t.line = (lineBehind line g).toNat) ∧ Account (lineBehind line (g ++ t.value.toList)) parts rest := by
  simp only [Account, ← toNat_lineBehind]
  constructor
  · intro h
    refine ⟨by simpa using h [] g t parts rfl, ?_⟩
    rintro front g' t' back rfl
    obtain ⟨hgap, htoken, hline⟩ := h ((g, t) :: front) g' t' back rfl
    exact ⟨hgap, htoken, by rw [hline, ← lineBehind_append]; simp⟩
  · rintro ⟨⟨hgap, htoken, hline⟩, h⟩ front g' t' back heq
    cases front with
    | nil =>
      cases heq
      exact ⟨hgap, htoken, by simpa using hline⟩
    | cons x front =>
      obtain ⟨rfl, rfl⟩ := List.cons.inj heq
      obtain ⟨hgap, htoken, hline⟩ := h front g' t' back rfl
      exact ⟨hgap, htoken, by rw [hline, ← lineBehind_append]; simp⟩

/-- What is accounted for is read so. -/
theorem scan_account : ∀ {parts : List (List Char × Token)} {line : UInt32}, Account line parts rest →
    scan (spread parts ++ rest) line =
      (scan rest (lineBehind line (spread parts))).map (parts.map (·.2) ++ ·)
  | [], line, _ => by
    simp only [spread_nil, List.nil_append, lineBehind_nil, List.map_nil]
    cases scan rest line <;> rfl
  | (g, t) :: parts, line, h => by
    obtain ⟨⟨hgap, htoken, hline⟩, h⟩ := account_cons.mp h
    have ht : (⟨t.kind, String.ofList t.value.toList, (lineBehind line g).toNat⟩ : Token) = t := by
      rw [String.ofList_toList, ← hline]
    rw [spread_cons, List.append_assoc, List.append_assoc, scan_gap hgap, scan_lexeme htoken, ← lineBehind_append,
      scan_account h, ht, ← lineBehind_append]
    simp only [List.append_assoc, List.map_cons, List.cons_append]
    cases scan rest _ <;> rfl

theorem account_nil : Account line [] rest := by
  rintro (_ | _) _ _ _ ⟨⟩

/-- A gap may be put in front of what is accounted for. -/
theorem Account.gap {gap behind : List Char} (h : Account (lineBehind line g) parts (gap ++ behind))
    (hgap : Gap behind gap) (hg : Gap (spread parts ++ (gap ++ behind)) g) : ∃ parts' gap',
      g ++ spread parts ++ gap = spread parts' ++ gap' ∧ Account line parts' (gap' ++ behind) ∧ Gap behind gap' := by
  cases parts with
  | nil => exact ⟨[], g ++ gap, by simp, account_nil, Gap.append (by simpa using hg) hgap⟩
  | cons x parts =>
    obtain ⟨g', t⟩ := x
    obtain ⟨⟨hgap', htoken, hline⟩, h⟩ := account_cons.mp h
    refine ⟨(g ++ g', t) :: parts, gap, by simp, account_cons.mpr ⟨⟨?_, htoken, ?_⟩, ?_⟩, hgap⟩
    · exact Gap.append (by simpa using hg) hgap'
    · rw [hline, lineBehind_append]
    · simpa only [lineBehind_append] using h

/-- Every text is accounted for, up to its end or to a place where nothing begins. -/
theorem exists_account (s : List Char) (line : UInt32) : ∃ parts gap rest, s = spread parts ++ (gap ++ rest) ∧
    Account line parts (gap ++ rest) ∧ Gap rest gap ∧ (rest ≠ [] → BeginsNothing rest) := by
  induction s, line using scan.induct with
  | case1 line => exact ⟨[], [], [], rfl, account_nil, .nil, fun h => absurd rfl h⟩
  | case2 line c s hp => exact ⟨[], [], c :: s, rfl, account_nil, .nil, fun _ => Piece.first?_eq_none hp⟩
  | case3 line c s p hp k hk ih =>
    obtain ⟨after, hs, htoken, -⟩ := Piece.first?_eq_some hp
    have hmore : s = p.more ++ after := (List.cons.inj hs).2
    rw [hmore, List.drop_left] at ih
    obtain ⟨parts, gap, rest, rfl, haccount, hgap, hrest⟩ := ih
    refine ⟨([], ⟨k, p.text, line.toNat⟩) :: parts, gap, rest, ?_, account_cons.mpr ⟨⟨.nil, ?_, ?_⟩, ?_⟩, hgap, hrest⟩
    · simp [hs, Piece.text]
    · simpa [Piece.text] using htoken k hk
    · rw [lineBehind_nil]
    · simpa [Piece.text] using haccount
  | case4 line c s p hp hk ih =>
    obtain ⟨after, hs, -, hpiece⟩ := Piece.first?_eq_some hp
    have hmore : s = p.more ++ after := (List.cons.inj hs).2
    rw [hmore, List.drop_left] at ih
    obtain ⟨parts, gap, rest, rfl, haccount, hgap, hrest⟩ := ih
    obtain ⟨parts', gap', heq, haccount', hgap'⟩ := haccount.gap hgap (hpiece hk)
    refine ⟨parts', gap', rest, ?_, haccount', hgap', hrest⟩
    rw [hs, ← List.append_assoc (spread parts'), ← heq]
    simp

theorem scan_account_gap {gap : List Char} (h : Account line parts (gap ++ rest)) (hgap : Gap rest gap) :
    scan (spread parts ++ (gap ++ rest)) line =
      (scan rest (lineBehind line (spread parts ++ gap))).map (parts.map (·.2) ++ ·) := by
  rw [scan_account h, scan_gap hgap, lineBehind_append]

/-- A text is read to its end just where it is made of tokens and gaps. -/
theorem scan_eq_ok {ts : List Token} : scan s line = .ok ts ↔ ∃ parts gap, s = spread parts ++ gap ∧
    Account line parts gap ∧ Gap [] gap ∧
      ts = parts.map (·.2) ++ [atEnd ((line.toNat + s.count '\n') % UInt32.size)] := by
  simp only [← toNat_lineBehind]
  constructor
  · intro h
    obtain ⟨parts, gap, rest, rfl, haccount, hgap, hrest⟩ := exists_account s line
    rw [scan_account_gap haccount hgap] at h
    cases rest with
    | nil =>
      rw [scan] at h
      cases h
      simp only [List.append_nil] at haccount ⊢
      exact ⟨parts, gap, rfl, haccount, hgap, rfl⟩
    | cons c rest =>
      rw [scan_nothing (hrest (List.cons_ne_nil c rest))] at h
      cases h
  · rintro ⟨parts, gap, rfl, haccount, hgap, rfl⟩
    have hscan := scan_account_gap (by rwa [List.append_nil]) hgap
    rw [List.append_nil] at hscan
    rw [hscan, scan]
    rfl

/-- Reading stops just at the first place where nothing begins. -/
theorem scan_eq_error {d : Diagnostic} : scan s line = .error d ↔ ∃ parts gap c rest,
    s = spread parts ++ (gap ++ c :: rest) ∧ Account line parts (gap ++ c :: rest) ∧ Gap (c :: rest) gap ∧
      BeginsNothing (c :: rest) ∧
      d = ⟨.unrecognisedToken (String.singleton c), (line.toNat + (spread parts ++ gap).count '\n') % UInt32.size⟩ := by
  simp only [← toNat_lineBehind]
  constructor
  · intro h
    obtain ⟨parts, gap, rest, rfl, haccount, hgap, hrest⟩ := exists_account s line
    rw [scan_account_gap haccount hgap] at h
    cases rest with
    | nil =>
      rw [scan] at h
      cases h
    | cons c rest =>
      have hnothing := hrest (List.cons_ne_nil c rest)
      rw [scan_nothing hnothing] at h
      cases h
      exact ⟨parts, gap, c, rest, rfl, haccount, hgap, hnothing, rfl⟩
  · rintro ⟨parts, gap, c, rest, rfl, haccount, hgap, hnothing, rfl⟩
    rw [scan_account_gap haccount hgap, scan_nothing hnothing]
    rfl

/-- A block comment that is not closed is read as the two marks that it begins with. -/
theorem scan_unclosed (h : ¬ ['*', '/'] <:+: s) : scan ('/' :: '*' :: s) line =
    (scan s line).map ([⟨.slash, "/", line.toNat⟩, ⟨.star, "*", line.toNat⟩] ++ ·) := by
  have hslash : Piece.first? ('/' :: '*' :: s) = some ⟨'/', [], some .slash⟩ := by
    rw [Piece.first?_of_marks (by decide) (by decide) (by decide), Piece.blockComment?, Piece.throughClose?_eq_none h]
    rfl
  have hstar : Piece.first? ('*' :: s) = some ⟨'*', [], some .star⟩ :=
    Piece.first?_of_marks (by decide) (by decide) (by decide)
  have hscan := scan_piece (p := ⟨'/', [], some .slash⟩) ('*' :: s) line hslash
  have hscan' := scan_piece (p := ⟨'*', [], some .star⟩) s line hstar
  simp only [Piece.chars, List.singleton_append] at hscan hscan'
  have hline : ∀ c : Char, c ≠ '\n' → lineBehind line [c] = line := fun c hc => by simp [lineBehind, hc]
  rw [hscan, hline '/' (by decide), hscan', hline '*' (by decide)]
  cases scan s line <;> rfl

/--
Reading accounts for every character. It succeeds on just the texts that are made of tokens, gaps in front of them and
one gap at the end, with these tokens and the mark of the end, each on the line that the newlines before it tell; and
it fails just where such a text goes on with a character that begins nothing, with that character and its line. Where
a text goes on with a block comment that is not closed, the comment is read as two marks. Lines are counted in 32 bits:
each is one more than the newlines before it, modulo `UInt32.size`.
-/
theorem ofSource_accounts (source : String) :
    (∀ ts, ofSource source = .ok ts ↔ ∃ parts gap, source.toList = spread parts ++ gap ∧ Account 1 parts gap ∧
      Gap [] gap ∧ ts = parts.map (·.2) ++ [atEnd ((1 + source.toList.count '\n') % UInt32.size)]) ∧
    (∀ d, ofSource source = .error d ↔ ∃ parts gap c rest, source.toList = spread parts ++ (gap ++ c :: rest) ∧
      Account 1 parts (gap ++ c :: rest) ∧ Gap (c :: rest) gap ∧ BeginsNothing (c :: rest) ∧
      d = ⟨.unrecognisedToken (String.singleton c), (1 + (spread parts ++ gap).count '\n') % UInt32.size⟩) ∧
    ∀ parts gap s, source.toList = spread parts ++ (gap ++ '/' :: '*' :: s) → Account 1 parts (gap ++ '/' :: '*' :: s) →
      Gap ('/' :: '*' :: s) gap → ¬ ['*', '/'] <:+: s →
      let line := (1 + (spread parts ++ gap).count '\n') % UInt32.size
      ofSource source =
        (scan s (.ofNat line)).map (parts.map (·.2) ++ [⟨.slash, "/", line⟩, ⟨.star, "*", line⟩] ++ ·) := by
  refine ⟨fun ts => scan_eq_ok, fun d => scan_eq_error, fun parts gap s hs haccount hgap hopen => ?_⟩
  intro line
  have hline : (lineBehind 1 (spread parts ++ gap)).toNat = line := toNat_lineBehind 1 _
  rw [ofSource, hs, scan_account_gap haccount hgap, scan_unclosed hopen, ← hline, UInt32.ofNat_toNat]
  cases scan s (lineBehind 1 (spread parts ++ gap)) with
  | error d => rfl
  | ok ts => simp only [Except.map, List.append_assoc]

theorem ofSource_accounts_short :
    (∃ parts gap, "if1==/**/\nif//".toList = spread parts ++ gap ∧ Account 1 parts gap ∧ Gap [] gap ∧
      [⟨.identifier, "if1", 1⟩, ⟨.equals, "==", 1⟩, ⟨.kwIf, "if", 2⟩, atEnd 2] =
        parts.map (·.2) ++ [atEnd ((1 + "if1==/**/\nif//".toList.count '\n') % UInt32.size)]) ∧
    ofSource "\n|" = .error ⟨.unrecognisedToken "|", 2⟩ ∧
    ofSource "\n/*/" = (scan ['/'] 2).map ([⟨.slash, "/", 2⟩, ⟨.star, "*", 2⟩] ++ ·) := by
  have hnewline : ∀ c ∈ ['\n'], Text.isBlank c = true := List.all_eq_true.mp (by decide)
  refine ⟨?_, ?_, ?_⟩
  · exact ((ofSource_accounts "if1==/**/\nif//").1 _).mp (by decide +kernel)
  · refine ((ofSource_accounts "\n|").2.1 _).mpr ⟨[], ['\n'], '|', [], rfl, account_nil, .of_blanks hnewline, ?_, rfl⟩
    exact Piece.first?_eq_none (by decide)
  · exact (ofSource_accounts "\n/*/").2.2 [] ['\n'] ['/'] rfl account_nil (.of_blanks hnewline) (by decide)

end Token

end FoolLang
