import TransportDeck.Proofs.Token.Lexemes
import TransportDeck.Proofs.Token.Partition

/-!
# Where records can be cut

The lexer looks ahead, so what it makes of a text may depend on the text behind.  It does not where
a break ends the one or a blank starts the other: then the tokens in front stay the same whatever is
put behind them.  And what stands behind is lexed as it would be at any other place, as long as it
does not become a comment there.
-/

namespace TransportDeck

/-- The same token, perhaps at another place. -/
structure Token.Alike (t u : Token) : Prop where
  kind_eq : t.kind = u.kind
  text_eq : t.text = u.text

namespace Lexer

open Text

/-! ## Breaks -/

/-- Words end in front of these characters, and what stands behind them is lexed on its own. -/
def breaks : List Char := [' ', '\t', '\n', '\r', '\x0c', ')', '&']

/-- The blanks, of which only some set tokens apart. -/
def blanks : List Char :=
  ['\t', '\n', '\x0b', '\x0c', '\r', ' ', '\x85', '\xa0', '\u1680', '\u2000', '\u2001', '\u2002',
    '\u2003', '\u2004', '\u2005', '\u2006', '\u2007', '\u2008', '\u2009', '\u200a', '\u2028',
    '\u2029', '\u202f', '\u205f', '\u3000']

/-- Every blank is one of the characters that are listed as blanks. -/
theorem mem_blanks_of_isBlank {c : Char} (h : isBlank c = true) : c ∈ blanks := by
  have hnat : c.toNat ∈ blanks.map Char.toNat := by
    have hblanks : blanks.map Char.toNat =
      [9, 10, 11, 12, 13, 32, 133, 160, 5760, 8192, 8193, 8194, 8195, 8196, 8197, 8198, 8199, 8200,
      8201, 8202, 8232, 8233, 8239, 8287, 12288] := by decide
    rw [hblanks]
    simp only [isBlank, Bool.or_eq_true, Bool.and_eq_true, decide_eq_true_eq, beq_iff_eq] at h
    simp only [List.mem_cons, List.not_mem_nil, or_false]
    omega
  obtain ⟨d, hd, heq⟩ := List.mem_map.mp hnat
  rwa [← Char.toNat_inj.mp heq]

/-- Words end in front of breaks, blanks, commas, and the marks of comments, groups and complements.
-/
def stops : List Char := breaks ++ (blanks ++ [',', '$', '(', '#'])

/-- The text in front ends there. -/
def Closes (rest : List Char) : Prop := ∀ c ∈ rest.head?, c ∈ stops

theorem closes_nil : Closes [] := by simp [Closes]

/-- A character of a line break closes the word in front of it. -/
theorem closes_of_mem_breaks {c : Char} (h : c ∈ breaks) (rest : List Char) :
    Closes (c :: rest) := by
  rintro _ ⟨⟩
  exact List.mem_append_left _ h

/-- A blank closes the word in front of it. -/
theorem closes_of_isBlank {c : Char} (h : isBlank c = true) (rest : List Char) :
    Closes (c :: rest) := by
  rintro _ ⟨⟩
  exact List.mem_append_right _ (List.mem_append_left _ (mem_blanks_of_isBlank h))

theorem closes_comma (rest : List Char) : Closes (',' :: rest) := by
  rintro _ ⟨⟩
  decide

theorem closes_dollar (rest : List Char) : Closes ('$' :: rest) := by
  rintro _ ⟨⟩
  decide

section

variable {rest : List Char} (h : Closes rest)
include h

/-- Nothing that the scanners look for stands in front of the rest. -/
theorem Closes.not_of {p : Char → Bool} (hp : stops.all (!p ·) = true) :
    ∀ c ∈ rest.head?, p c = false :=
  fun c hc ↦ by simpa using List.all_eq_true.mp hp c (h c hc)

/-- A run of characters ends where the word in front of it is closed. -/
theorem run_of_closes {p : Char → Bool} (hp : stops.all (!p ·) = true) (cs : List Char) :
    run p (cs ++ rest) = run p cs := by
  have hstop : rest.takeWhile p = [] := by
    cases rest with
    | nil => rfl
    | cons c rest => exact List.takeWhile_cons_of_neg (by simp [h.not_of hp c rfl])
  rw [run, run, List.takeWhile_append, hstop, List.append_nil]
  split_ifs with hall
  · exact hall.symm
  · rfl

/-- Digits are counted up to the end of the word. -/
theorem digits_of_closes (cs : List Char) : digits (cs ++ rest) = digits cs :=
  run_of_closes h (by decide) cs

/-- Letters are counted up to the end of the word. -/
theorem letters_of_closes (cs : List Char) : letters (cs ++ rest) = letters cs :=
  run_of_closes h (by decide) cs

theorem sign_of_closes (cs : List Char) : sign (cs ++ rest) = sign cs := by
  cases cs with
  | cons c cs => rfl
  | nil =>
    cases rest with
    | nil => rfl
    | cons c rest => simp [sign, h.not_of (p := isSign) (by decide) c rfl]

/-- A nuclide does not reach over the end of the word. -/
theorem nuclide?_of_closes (cs : List Char) : nuclide? (cs ++ rest) = nuclide? cs := by
  unfold nuclide?
  rw [digits_of_closes h]
  have hle : digits cs ≤ cs.length := run_le_length _ _
  simp only [List.drop_append_of_le_length hle]
  generalize digits cs = n
  cases cs.drop n with
  | nil =>
    cases rest with
    | nil => rfl
    | cons b rest =>
      have hb : b ≠ '.' := by simpa using h.not_of (p := (· == '.')) (by decide) b rfl
      simp [hb]
  | cons d t =>
    by_cases hd : d = '.'
    · subst hd
      have hle' : digits t ≤ t.length := run_le_length _ _
      simp only [List.cons_append, digits_of_closes h, List.drop_append_of_le_length hle',
        letters_of_closes h]
    · simp [hd]

/-- The name of a thermal law does not reach over the end of the word. -/
theorem thermalLaw?_of_closes (cs : List Char) : thermalLaw? (cs ++ rest) = thermalLaw? cs := by
  cases cs with
  | nil =>
    cases rest with
    | nil => rfl
    | cons b rest => simp [thermalLaw?, h.not_of (p := Char.isAlpha) (by decide) b rfl]
  | cons c cs =>
    have hle : run isLawChar cs ≤ cs.length := run_le_length _ _
    simp only [List.cons_append, thermalLaw?, run_of_closes h (p := isLawChar) (by decide),
      List.drop_append_of_le_length hle]
    generalize run isLawChar cs = n
    cases cs.drop n with
    | nil =>
      cases rest with
      | nil => rfl
      | cons b rest =>
        have hb : b ≠ '.' := by simpa using h.not_of (p := (· == '.')) (by decide) b rfl
        simp [hb]
    | cons d t =>
      by_cases hd : d = '.'
      · subst hd
        have hle' : digits t ≤ t.length := run_le_length _ _
        simp only [List.cons_append, digits_of_closes h, List.drop_append_of_le_length hle']
        cases t.drop (digits t) with
        | cons e t => rfl
        | nil =>
          cases rest with
          | nil => rfl
          | cons b rest => simp [h.not_of (p := Char.isAlpha) (by decide) b rfl]
      · simp [hd]

/-- A word that starts like a number does not reach over its end. -/
theorem numberWord?_of_closes (cs : List Char) : numberWord? (cs ++ rest) = numberWord? cs := by
  unfold numberWord?
  have hle := sign_le_length cs
  have hle' : sign cs + digits (cs.drop (sign cs)) ≤ cs.length := run_drop_le _ hle
  simp only [sign_of_closes h, List.drop_append_of_le_length hle, digits_of_closes h,
    List.drop_append_of_le_length hle']
  generalize digits (cs.drop (sign cs)) = n
  cases cs.drop (sign cs + n) with
  | cons d t =>
    have hletters := letters_of_closes h (d :: t)
    rw [List.cons_append] at hletters ⊢
    dsimp only
    rw [hletters]
  | nil =>
    cases rest with
    | nil => rfl
    | cons b rest => simp [h.not_of (p := Char.isAlpha) (by decide) b rfl]

/-- An exponent does not reach over the end of the word. -/
theorem exponent_of_closes (cs : List Char) : exponent (cs ++ rest) = exponent cs := by
  cases cs with
  | nil =>
    cases rest with
    | nil => rfl
    | cons b rest =>
      have hsign : isSign b = false := h.not_of (by decide) b rfl
      have hletter : (b == 'e' || b == 'E') = false :=
        h.not_of (p := fun c ↦ c == 'e' || c == 'E') (by decide) b rfl
      simp [exponent, sign, hsign, hletter]
  | cons c cs =>
    unfold exponent
    rw [List.cons_append]
    dsimp only
    have hl : (if (c == 'e' || c == 'E') = true then 1 else 0) ≤ (c :: cs).length := by
      rw [List.length_cons]
      split_ifs <;> omega
    generalize (if (c == 'e' || c == 'E') = true then 1 else 0) = l at hl ⊢
    have hs := sign_le_length ((c :: cs).drop l)
    rw [List.length_drop] at hs
    have hls : l + sign ((c :: cs).drop l) ≤ (c :: cs).length := by omega
    rw [← List.cons_append, List.drop_append_of_le_length hl, sign_of_closes h,
      List.drop_append_of_le_length hls, digits_of_closes h]

/-- A number does not reach over the end of the word. -/
theorem number?_of_closes (cs : List Char) : number? (cs ++ rest) = number? cs := by
  have hle := sign_le_length cs
  have hle' : sign cs + digits (cs.drop (sign cs)) ≤ cs.length := run_drop_le _ hle
  unfold number?
  simp only [sign_of_closes h, List.drop_append_of_le_length hle, digits_of_closes h,
    List.drop_append_of_le_length hle']
  generalize sign cs + digits (cs.drop (sign cs)) = k at hle' ⊢
  have hmap {o : Option Nat} (ho : ∀ m ∈ o, m ≤ cs.length) :
      o.map (fun m ↦ m + exponent ((cs ++ rest).drop m)) =
      o.map (fun m ↦ m + exponent (cs.drop m)) :=
    Option.map_congr fun m hm ↦ by
      rw [List.drop_append_of_le_length (ho m hm), exponent_of_closes h]
  cases hdrop : cs.drop k with
  | nil =>
    cases rest with
    | nil => rw [List.append_nil, List.append_nil]
    | cons b rest =>
      have hb : b ≠ '.' := by simpa using h.not_of (p := (· == '.')) (by decide) b rfl
      simp only [List.nil_append, beq_iff_eq, List.cons.injEq, hb,
        false_and, imp_self, implies_true]
      exact hmap (by split_ifs <;> simp [hle'])
  | cons d t =>
    have hlength := exists_of_drop_eq_cons hdrop
    by_cases hd : d = '.'
    · subst hd
      have hdigits : digits t ≤ t.length := run_le_length _ _
      simp only [List.cons_append, digits_of_closes h]
      exact hmap (by split_ifs <;> simp; omega)
    · simp only [List.cons_append, beq_iff_eq, List.cons.injEq, hd,
        false_and, imp_self, implies_true]
      exact hmap (by split_ifs <;> simp [hle'])

/-- A word does not reach over its end. -/
theorem word_of_closes (cs : List Char) : word (cs ++ rest) = word cs := by
  have hle : letters cs ≤ cs.length := run_le_length _ _
  unfold word
  simp only [letters_of_closes h, List.drop_append_of_le_length hle,
    run_of_closes h (p := fun c ↦ c.isAlpha || c == '.' || c == '/') (by decide)]

/-- Whether a number is one, or runs into a word, is told by what stands in front of the end of the
word. -/
theorem numberLexeme_of_closes {cs : List Char} {n : Nat} (hn : n ≤ cs.length) :
    numberLexeme (cs ++ rest) n = numberLexeme cs n := by
  unfold numberLexeme
  simp only [List.take_append_of_le_length hn, List.drop_append_of_le_length hn]
  cases cs.drop n with
  | nil =>
    cases rest with
    | nil => rfl
    | cons b rest =>
      have hb : (b == 'm' || b == 'M') = false :=
        h.not_of (p := fun c ↦ c == 'm' || c == 'M') (by decide) b rfl
      simp [hb]
  | cons d t =>
    have hends : endsWord (t ++ rest) = endsWord t := by
      cases t with
      | cons e t => rfl
      | nil =>
        cases rest with
        | nil => rfl
        | cons b rest => simp [endsWord, h.not_of (p := Char.isAlphanum) (by decide) b rfl]
    simp only [List.cons_append, hends]

/-- A mark does not reach over the end of the word. -/
theorem symbolLexeme?_of_closes (mode : LexMode) (c : Char) (cs : List Char) :
    symbolLexeme? mode c (cs ++ rest) = symbolLexeme? mode c cs := by
  rw [symbolLexeme?, symbolLexeme?, run_of_closes h (by decide)]

/-- A word, as a lexeme, does not reach over its end. -/
theorem wordLexeme?_of_closes (mode : LexMode) (c : Char) (cs : List Char) :
    wordLexeme? mode c (cs ++ rest) = wordLexeme? mode c cs := by
  have htake {n : Nat} (hn : n ≤ (c :: cs).length) : (c :: cs ++ rest).take n = (c :: cs).take n :=
    List.take_append_of_le_length hn
  unfold wordLexeme?
  simp only [← List.cons_append, nuclide?_of_closes h, thermalLaw?_of_closes h,
    numberWord?_of_closes h, number?_of_closes h, word_of_closes h, htake (word_le_length _)]
  split
  · rfl
  split
  · rfl
  split
  · next n hn => rw [htake (fits_numberWord? hn).2]
  split
  · next n hn => rw [numberLexeme_of_closes h (fits_number? hn).2]
  · rw [symbolLexeme?_of_closes h]

end

/-! ## Texts that part -/

/-- The text behind the place does not matter for what stands in front of it: it starts with a
blank, or a break ends what stands in front. -/
def Apart (cs rest : List Char) : Prop := endsLine rest = true ∨ ∀ c ∈ cs.getLast?, c ∈ breaks

/-- What is apart from a text is apart from the end of that text. -/
theorem Apart.of_append {cs ds rest : List Char} (h : Apart (cs ++ ds) rest) : Apart ds rest := by
  refine h.imp_right fun hlast c hc ↦ hlast c ?_
  rw [List.getLast?_append, Option.mem_def.mp hc]
  rfl

/-- The character that ends a line or a comment letter is a blank. -/
theorem isBlank_of_endsLine {d : Char} (h : endsLine (d :: rest) = true) : isBlank d = true := by
  have hd : isAsciiBlank d = true := h
  simp only [isAsciiBlank, Bool.or_eq_true, beq_iff_eq] at hd
  rcases hd with (((rfl | rfl) | rfl) | rfl) | rfl <;> rfl

/-- The end of a line closes the word in front of it. -/
theorem closes_of_endsLine {rest : List Char} (h : endsLine rest = true) : Closes rest := by
  cases rest with
  | nil => exact closes_nil
  | cons c rest => exact closes_of_isBlank (isBlank_of_endsLine h) rest

section

variable {mode : LexMode} {c : Char} {cs rest rest' : List Char} {margin : Option Nat}

/-- Words are the same in front of anything that stands apart. -/
theorem wordLexeme?_of_apart (h : Apart (c :: cs) rest) (hblank : isAsciiBlank c = false) :
    wordLexeme? mode c (cs ++ rest) = wordLexeme? mode c cs := by
  rcases h with hrest | hlast
  · exact wordLexeme?_of_closes (closes_of_endsLine hrest) mode c cs
  · cases cs using List.reverseRec with
    | nil =>
      have hc : c ∈ breaks := hlast c rfl
      -- Only the breaks that are no blanks are left, and they are marks.
      fin_cases hc <;> first | (cases hblank; done) | (cases mode <;> rfl)
    | append_singleton us d =>
      have hd : d ∈ breaks := hlast d (by rw [← List.cons_append, List.getLast?_concat]; rfl)
      have hcloses (ws : List Char) : Closes (d :: ws) := closes_of_mem_breaks hd ws
      rw [List.append_assoc, List.singleton_append, wordLexeme?_of_closes (hcloses rest),
        wordLexeme?_of_closes (hcloses [])]

/-- A comment line is one in front of anything that stands apart. -/
theorem startsComment_of_apart (h : Apart (c :: cs) rest) :
    startsComment margin c (cs ++ rest) = startsComment margin c cs := by
  cases cs with
  | cons d ds => rfl
  | nil =>
    cases margin with
    | none => rfl
    | some n =>
      rcases h with hrest | hlast
      · rw [List.nil_append, startsComment, startsComment, hrest]
        rfl
      · have hc : (c == 'c' || c == 'C') = false := by
          have hc : c ∈ breaks := hlast c rfl
          fin_cases hc <;> rfl
        simp [startsComment, hc]

/-- What is made of any end of the text does not depend on the text behind. -/
def Severed (mode : LexMode) (cs rest : List Char) : Prop := ∀ c bs, c :: bs <:+ cs →
  (isAsciiBlank c = false → wordLexeme? mode c (bs ++ rest) = wordLexeme? mode c bs) ∧
    ∀ margin, startsComment margin c (bs ++ rest) = startsComment margin c bs

/-- What is severed from a text is severed from the end of that text. -/
theorem Severed.of_suffix {ds : List Char} (h : Severed mode cs rest) (hsuffix : ds <:+ cs) :
    Severed mode ds rest :=
  fun c bs hbs ↦ h c bs (hbs.trans hsuffix)

/-- What stands apart is severed. -/
theorem Apart.severed (h : Apart cs rest) : Severed mode cs rest := by
  rintro c bs ⟨as, rfl⟩
  have hend : Apart (c :: bs) rest := h.of_append
  exact ⟨wordLexeme?_of_apart hend, fun _ ↦ startsComment_of_apart hend⟩

/-- In front of what closes the text there is no comment to come, unless the text ends with the
letter of one. -/
theorem severed_of_closes (h : Closes rest)
    (hlast : ∀ c ∈ cs.getLast?, (c == 'c' || c == 'C') = false) :
    Severed mode cs rest := by
  rintro c bs ⟨as, rfl⟩
  refine ⟨fun _ ↦ wordLexeme?_of_closes h mode c bs, fun margin ↦ ?_⟩
  cases bs with
  | cons d ds => rfl
  | nil =>
    have hc : (c == 'c' || c == 'C') = false := hlast c List.getLast?_concat
    unfold startsComment
    cases margin with
    | none => rfl
    | some n => simp [hc]

/-- A run that has ended ends there in front of anything that does not go on with it. -/
theorem run_replace {p : Char → Bool} {n : Nat} (h : run p (cs ++ rest) = n) (hn : n ≤ cs.length)
    (hend : n = cs.length → ∀ d ∈ rest'.head?, p d = false) : run p (cs ++ rest') = n := by
  unfold run at h ⊢
  rw [List.takeWhile_append] at h ⊢
  split_ifs at h ⊢ with hall
  · rw [List.length_append] at h
    have hstop : rest'.takeWhile p = [] := by
      cases rest' with
      | nil => rfl
      | cons d rest' => exact List.takeWhile_cons_of_neg (by simp [hend (by omega) d rfl])
    rw [hstop, List.append_nil]
    omega
  · exact h

/-- What may stand behind a token without becoming a part of it. -/
structure Bounds (kind : TokenKind) (rest : List Char) : Prop where
  comment : kind.isComment = true → ∀ c ∈ rest.head?, c = '\n'
  blank : kind = .space → StartsSolid rest

/-- A lexeme that ends in front of the place stays when what stands behind is replaced. -/
theorem lexeme?_replace {kind : TokenKind} {n : Nat} (hmode : mode ≠ .read)
    (h : Severed mode (c :: cs) rest) (h' : Severed mode (c :: cs) rest')
    (hlex : lexeme? mode margin c (cs ++ rest) = some (kind, n)) (hn : n ≤ (c :: cs).length)
    (hend : n = (c :: cs).length → Bounds kind rest') :
    lexeme? mode margin c (cs ++ rest') = some (kind, n) := by
  obtain ⟨hword, hcomment⟩ := h c cs (List.suffix_refl _)
  obtain ⟨hword', hcomment'⟩ := h' c cs (List.suffix_refl _)
  have hline (hkind : kind.isComment = true) (heq : 1 + toLineEnd (cs ++ rest) = n) :
      1 + toLineEnd (cs ++ rest') = n := by
    rw [List.length_cons] at hn hend
    have hrun : toLineEnd (cs ++ rest') = toLineEnd (cs ++ rest) :=
      run_replace rfl (show toLineEnd _ ≤ _ by omega) fun hlen d hd ↦ by
        have hlen : toLineEnd (cs ++ rest) = cs.length := hlen
        simp [(hend (by omega)).comment hkind d hd]
    rw [hrun, heq]
  unfold lexeme? at hlex ⊢
  rw [hcomment, if_neg hmode] at hlex
  rw [hcomment', if_neg hmode]
  split_ifs at hlex ⊢ with hmark hdollar hcomment hblank
  · exact hlex
  · obtain ⟨rfl, hlength⟩ := Prod.mk.inj (Option.some.inj hlex)
    rw [hline rfl hlength]
  · obtain ⟨rfl, hlength⟩ := Prod.mk.inj (Option.some.inj hlex)
    rw [hline rfl hlength]
  · obtain ⟨rfl, rfl⟩ := Prod.mk.inj (Option.some.inj hlex)
    rw [List.length_cons] at hn hend
    have hrun : run isAsciiBlank (cs ++ rest') = run isAsciiBlank (cs ++ rest) :=
      run_replace rfl (by omega) fun hlen d hd ↦ (hend (by omega)).blank rfl d hd
    rw [hrun]
  · have hsolid : isAsciiBlank c = false := by simpa using hblank
    rwa [hword' hsolid, ← hword hsolid]

/-- A lexeme that ends with a break is layout or closes a group. -/
theorem kind_of_break {kind : TokenKind}
    (hlex : lexeme? .cell margin c (cs ++ rest) = some (kind, (c :: cs).length))
    (hlast : ∀ d ∈ (c :: cs).getLast?, d ∈ breaks) : kind.isLayout = true ∨ kind = .rightParen := by
  unfold lexeme? at hlex
  split_ifs at hlex with hmark hdollar hcomment hblank hread
  · obtain rfl : c = '#' := by simpa using hmark
    obtain ⟨-, hlength⟩ := Prod.mk.inj (Option.some.inj hlex)
    obtain rfl : cs = [] := by simpa using hlength
    exact absurd (hlast _ rfl) (by decide)
  · exact .inl (by rw [← (Prod.mk.inj (Option.some.inj hlex)).1]; rfl)
  · exact .inl (by rw [← (Prod.mk.inj (Option.some.inj hlex)).1]; rfl)
  · exact .inl (by rw [← (Prod.mk.inj (Option.some.inj hlex)).1]; rfl)
  · cases hread
  · cases cs using List.reverseRec with
    | nil =>
      have hc : c ∈ breaks := hlast c rfl
      have hword : wordLexeme? .cell c ([] ++ rest) = wordLexeme? .cell c [] :=
        wordLexeme?_of_apart (.inr hlast) (by simpa using hblank)
      rw [hword] at hlex
      have hmark : punctuation? c = some kind := by
        fin_cases hc <;> first | (exact absurd rfl hblank) | exact congrArg (·.map Prod.fst) hlex
      fin_cases hc <;> cases hmark
      · exact .inr rfl
      · exact .inl rfl
    | append_singleton us d =>
      -- The scanners stop in front of the break, so the lexeme would be shorter.
      have hcloses : Closes (d :: rest) :=
        closes_of_mem_breaks (hlast d (by rw [← List.cons_append, List.getLast?_concat]; rfl)) rest
      rw [List.append_assoc, List.singleton_append, wordLexeme?_of_closes hcloses] at hlex
      have hle := (isLexeme_wordLexeme? hlex).fits.2
      simp at hle

end

/-! ## Cuts -/

namespace Cuts

variable {mode : LexMode} {margin margin' : Option Nat} {p : Position}
  {cs left mid rest rest' : List Char} {t : Token} {ts us : List Token}

/-- One lexeme in front of others. -/
theorem cons {kind : TokenKind} {c : Char} {ds : List Char}
    (lexeme : lexeme? mode margin c (ds ++ cs) = some (kind, (c :: ds).length))
    (h : Cuts mode (marginAfter margin (c :: ds)) (p.advance (c :: ds)) cs ts left) :
    Cuts mode margin p (c :: ds ++ cs)
      (⟨kind, String.ofList (c :: ds), .ofText p (c :: ds)⟩ :: ts) left := by
  have htake : (c :: (ds ++ cs)).take (c :: ds).length = c :: ds := by
    rw [← List.cons_append, List.take_left]
  have hdrop : (c :: (ds ++ cs)).drop (c :: ds).length = cs := by
    rw [← List.cons_append, List.drop_left]
  have hcuts := @Cuts.token mode margin p c (ds ++ cs) left kind (c :: ds).length ts lexeme
    (isLexeme_of_lexeme? lexeme).fits
  rw [htake, hdrop] at hcuts
  exact hcuts h

/-- What the first token has been cut from. -/
theorem exists_of_cons (h : Cuts mode margin p cs (t :: ts) left) : ∃ kind c ds cs',
    cs = c :: ds ++ cs' ∧ t = ⟨kind, String.ofList (c :: ds), .ofText p (c :: ds)⟩ ∧
      lexeme? mode margin c (ds ++ cs') = some (kind, (c :: ds).length) ∧
      Cuts mode (marginAfter margin (c :: ds)) (p.advance (c :: ds)) cs' ts left := by
  cases h with
  | @token _ _ c cs _ kind n _ lexeme fits cut =>
    obtain ⟨n, rfl⟩ := Nat.exists_eq_succ_of_ne_zero fits.1.ne'
    have hlength : (cs.take n).length = n := List.length_take_of_le (Nat.le_of_succ_le_succ fits.2)
    refine ⟨kind, c, cs.take n, cs.drop n, ?_, rfl, ?_, cut⟩
    · rw [List.cons_append, List.take_append_drop]
    · rwa [List.take_append_drop, List.length_cons, hlength]

/-- Two cuts behind each other are one. -/
theorem append (h : Cuts mode margin p cs ts mid)
    (h' : Cuts mode (marginAfter margin (textOf ts).toList)
      (p.advance (textOf ts).toList) mid us left) : Cuts mode margin p cs (ts ++ us) left := by
  induction ts generalizing margin p cs with
  | nil =>
    cases h
    exact h'
  | cons t ts ih =>
    obtain ⟨kind, c, ds, cs', rfl, rfl, lexeme, hts⟩ := h.exists_of_cons
    rw [textOf_cons, String.toList_append, String.toList_ofList, marginAfter, List.foldl_append,
      Position.advance_append] at h'
    exact .cons lexeme (ih hts h')

/-- A cut into two lists of tokens can be taken apart between them. -/
theorem exists_of_append (h : Cuts mode margin p cs (ts ++ us) left) :
    ∃ mid, Cuts mode margin p cs ts mid ∧ Cuts mode (marginAfter margin (textOf ts).toList)
      (p.advance (textOf ts).toList) mid us left := by
  induction ts generalizing margin p cs with
  | nil => exact ⟨cs, .done, h⟩
  | cons t ts ih =>
    obtain ⟨kind, c, ds, cs', rfl, rfl, lexeme, hrest⟩ := h.exists_of_cons
    obtain ⟨mid, hts, hus⟩ := ih hrest
    refine ⟨mid, .cons lexeme hts, ?_⟩
    rwa [textOf_cons, String.toList_append, String.toList_ofList, marginAfter, List.foldl_append,
      Position.advance_append]

/-- Tokens stay when the text behind them is replaced, as long as it does not matter for them. -/
theorem replace_of_severed (hmode : mode ≠ .read) (h : Cuts mode margin p cs ts rest)
    (hrest : Severed mode (textOf ts).toList rest) (hrest' : Severed mode (textOf ts).toList rest')
    (hend : ∀ t ∈ ts.getLast?, Bounds t.kind rest') :
    Cuts mode margin p ((textOf ts).toList ++ rest') ts rest' := by
  induction ts generalizing margin p cs with
  | nil => exact .done
  | cons t ts ih =>
    obtain ⟨kind, c, ds, cs', rfl, rfl, lexeme, hts⟩ := h.exists_of_cons
    have hnonempty := hts.partitions.nonempty
    obtain rfl := hts.eq_append
    rw [textOf_cons, String.toList_append, String.toList_ofList] at hrest hrest' ⊢
    have hsuffix : (textOf ts).toList <:+ c :: ds ++ (textOf ts).toList := List.suffix_append _ _
    rw [← List.append_assoc] at lexeme
    rw [List.append_assoc]
    refine .cons ?_ ?_
    · rw [← List.append_assoc]
      refine lexeme?_replace hmode hrest hrest' lexeme (by simp) fun hlength ↦ ?_
      -- The lexeme is the last one, for every token has a text.
      cases ts with
      | nil => exact hend _ rfl
      | cons u ts =>
        have htext : (textOf (u :: ts)).toList = [] := by simpa using hlength
        simp [hnonempty u List.mem_cons_self] at htext
    · refine ih hts (hrest.of_suffix hsuffix) (hrest'.of_suffix hsuffix) fun t ht ↦ hend t ?_
      cases ts with
      | nil => cases ht
      | cons u ts => rwa [List.getLast?_cons_cons]

/-- Tokens stay when the text behind them is replaced, as long as they are set apart from it. -/
theorem replace (hmode : mode ≠ .read) (h : Cuts mode margin p cs ts rest)
    (hrest : Apart (textOf ts).toList rest) (hrest' : Apart (textOf ts).toList rest')
    (hend : ∀ t ∈ ts.getLast?, Bounds t.kind rest') :
    Cuts mode margin p ((textOf ts).toList ++ rest') ts rest' :=
  h.replace_of_severed hmode hrest.severed hrest'.severed hend

/-- What margin stands in front of a text matters only if it starts with a comment. -/
def SameStart (margin margin' : Option Nat) : List Char → Prop
  | [] => True
  | c :: cs => c ≠ ' ' ∧ startsComment margin c cs = startsComment margin' c cs

/-- The same tokens at another place. -/
theorem moved (h : Cuts mode margin p cs ts left)
    (hstart : margin = margin' ∨ SameStart margin margin' cs) (q : Position) :
    ∃ us, Cuts mode margin' q cs us left ∧ List.Forall₂ Token.Alike ts us := by
  induction ts generalizing margin margin' p q cs with
  | nil =>
    cases h
    exact ⟨[], .done, .nil⟩
  | cons t ts ih =>
    obtain ⟨kind, c, ds, cs', rfl, rfl, lexeme, hts⟩ := h.exists_of_cons
    have hlexeme : lexeme? mode margin' c (ds ++ cs') = some (kind, (c :: ds).length) := by
      rcases hstart with rfl | ⟨-, hcomment⟩
      · exact lexeme
      · have hcomment : startsComment margin c (ds ++ cs') = startsComment margin' c (ds ++ cs') :=
          hcomment
        unfold lexeme? at lexeme ⊢
        rwa [← hcomment]
    have hmargin : marginAfter margin (c :: ds) = marginAfter margin' (c :: ds) := by
      rcases hstart with rfl | ⟨hc, -⟩
      · rfl
      · have hstep : marginStep margin c = marginStep margin' c := by simp [marginStep, hc]
        rw [marginAfter, marginAfter, List.foldl_cons, List.foldl_cons, hstep]
    obtain ⟨us, hus, halike⟩ := ih hts (.inl hmargin) (q.advance (c :: ds))
    exact ⟨_, .cons hlexeme hus, .cons ⟨rfl, rfl⟩ halike⟩

/-- Tokens that are exchanged for others leave the rest as it is, if the text does not matter for
those in front and those behind start as they did. -/
theorem exchange {added : List Char} {rs xs : List Token} {m : Option Nat} (hmode : mode ≠ .read)
    (h : Cuts mode margin p cs (ts ++ (rs ++ us)) [])
    (hm : marginAfter margin (textOf ts).toList = m)
    (hadded : Cuts mode m (p.advance (textOf ts).toList) (added ++ (textOf us).toList)
      xs (textOf us).toList)
    (hold : Severed mode (textOf ts).toList (textOf (rs ++ us)).toList)
    (hnew : Severed mode (textOf ts).toList (added ++ (textOf us).toList))
    (hend : ∀ t ∈ ts.getLast?, Bounds t.kind (added ++ (textOf us).toList))
    (hstart : marginAfter m (textOf rs).toList = marginAfter m added ∨
      SameStart (marginAfter m (textOf rs).toList) (marginAfter m added) (textOf us).toList) :
    ∃ us', Cuts mode margin p ((textOf ts).toList ++ (added ++ (textOf us).toList))
      (ts ++ (xs ++ us')) [] ∧ List.Forall₂ Token.Alike us us' := by
  subst hm
  obtain ⟨mid, hts, hrest⟩ := h.exists_of_append
  obtain rfl : mid = (textOf (rs ++ us)).toList := by simpa using hrest.eq_append
  obtain ⟨mid, -, hus⟩ := hrest.exists_of_append
  obtain rfl : mid = (textOf us).toList := by simpa using hus.eq_append
  have hxs : (textOf xs).toList = added := List.append_cancel_right hadded.eq_append.symm
  obtain ⟨us', hus', halike⟩ := hus.moved hstart ((p.advance (textOf ts).toList).advance added)
  refine ⟨us', (hts.replace_of_severed hmode hold hnew hend).append (hadded.append ?_), halike⟩
  rwa [hxs]

end Cuts

/-! ## Records -/

/-- A token that is no layout is not too long. -/
def IsShort (t : Token) : Prop := t.isLayout = true ∨ byteSize t.text.toList ≤ Limits.tokenBytes

/-- Tokens that cut a text are what the lexer gives, if none is too long and there are not too many.
-/
theorem tokensFrom_of_cuts {mode : LexMode} {margin : Option Nat} {p : Position} {cs : List Char}
    {ts : List Token} {count : Nat} (h : Cuts mode margin p cs ts []) (hshort : ∀ t ∈ ts, IsShort t)
    (hcount : count ≤ Limits.tokens) : tokensFrom mode margin p count cs =
      if count + ts.length ≤ Limits.tokens then .ok ts
        else .error (.tooManyTokens Limits.tokens) := by
  induction ts generalizing margin p cs count with
  | nil =>
    cases h
    rw [tokensFrom, List.length_nil, Nat.add_zero, if_pos hcount]
  | cons t ts ih =>
    obtain ⟨kind, c, ds, cs', rfl, rfl, lexeme, hts⟩ := h.exists_of_cons
    obtain ⟨hfirst, hrest⟩ := List.forall_mem_cons.mp hshort
    have hfits : ¬(decide (byteSize (c :: ds) > Limits.tokenBytes) && !kind.isLayout) = true := by
      rcases hfirst with hlayout | hsize
      · change kind.isLayout = true at hlayout
        simp [hlayout]
      · rw [String.toList_ofList] at hsize
        simp [hsize]
    rw [List.cons_append, tokensFrom, List.length_cons]
    by_cases hfull : count ≥ Limits.tokens
    · rw [if_pos hfull, if_neg (by omega), Nat.le_antisymm hcount hfull]
    · have htail : tokensFrom mode _ (Span.ofText p (c :: ds)).stop (count + 1) cs' = _ :=
        ih hts hrest (by omega)
      have hlength : count + (ts.length + 1) = count + 1 + ts.length := by omega
      rw [if_neg hfull]
      simp only [lexeme, List.length_cons, Nat.add_sub_cancel, List.take_left, List.drop_left]
      rw [if_neg hfits, htail, hlength]
      split_ifs <;> rfl

/-- None of the tokens that the lexer gives is too long, and there are not too many. -/
theorem isShort_of_tokensFrom {mode : LexMode} {margin : Option Nat} {p : Position} {cs : List Char}
    {ts : List Token} {count : Nat} (hcount : count ≤ Limits.tokens)
    (h : tokensFrom mode margin p count cs = .ok ts) :
    (∀ t ∈ ts, IsShort t) ∧ count + ts.length ≤ Limits.tokens := by
  induction ts generalizing margin p cs count with
  | nil => exact ⟨by simp, hcount⟩
  | cons t ts ih =>
    cases cs with
    | nil =>
      rw [tokensFrom] at h
      cases h
    | cons c cs =>
      rw [tokensFrom] at h
      split_ifs at h with hlt
      split at h
      · cases h
      · next kind k hlex =>
        dsimp only at h
        split_ifs at h with hlong
        split at h
        · next rest hrest =>
          obtain ⟨rfl, rfl⟩ := List.cons.inj (Except.ok.inj h)
          obtain ⟨hall, hle⟩ := ih (by omega) hrest
          refine ⟨List.forall_mem_cons.mpr ⟨?_, hall⟩, by rw [List.length_cons]; omega⟩
          simp only [Bool.and_eq_true, decide_eq_true_eq, Bool.not_eq_true', not_and,
            Bool.not_eq_false] at hlong
          by_cases hsize : byteSize (c :: cs.take (k - 1)) > Limits.tokenBytes
          · exact .inl (hlong hsize)
          · exact .inr (by rw [String.toList_ofList]; omega)
        · cases h

/-- The tokens of a record are its lexemes, if they are not too many and not too long. -/
theorem tokenize_eq_ok_iff {mode : LexMode} {source : String} {ts : List Token} :
    tokenize mode source = .ok ts ↔ Cuts mode (some 0) .start source.toList ts [] ∧
      (∀ t ∈ ts, IsShort t) ∧ ts.length ≤ Limits.tokens := by
  constructor
  · intro h
    have htokens : tokensFrom mode (some 0) .start 0 source.toList = .ok ts := h
    have hcuts := cuts_tokensFrom mode (some 0) .start 0 source.toList
    rw [htokens] at hcuts
    obtain ⟨hshort, hcount⟩ := isShort_of_tokensFrom (Nat.zero_le _) htokens
    exact ⟨hcuts, hshort, by omega⟩
  · rintro ⟨hcuts, hshort, hcount⟩
    exact (tokensFrom_of_cuts hcuts hshort (Nat.zero_le _)).trans (if_pos (by omega))

/-- If there are too many of them, the error says how many there may be. -/
theorem tokenize_of_cuts {mode : LexMode} {source : String} {ts : List Token}
    (h : Cuts mode (some 0) .start source.toList ts []) (hshort : ∀ t ∈ ts, IsShort t) :
    tokenize mode source =
      if ts.length ≤ Limits.tokens then .ok ts else .error (.tooManyTokens Limits.tokens) := by
  have htokens := tokensFrom_of_cuts h hshort (Nat.zero_le _)
  rwa [Nat.zero_add] at htokens

end Lexer

end TransportDeck
