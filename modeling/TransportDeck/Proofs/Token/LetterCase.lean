import TransportDeck.Proofs.Number.Numerals
import TransportDeck.Proofs.Token.Partition

/-!
# Tokens in any letter case

A text is cut into tokens at the same places in any letter case, and the tokens are of the same
kinds.
-/

namespace TransportDeck

open Text

/-- The token in small letters. -/
def Token.lowered (t : Token) : Token := { t with text := lowerString t.text }

namespace Lexer

variable (cs : List Char)

/-! ## Scanners -/

/-- The digits in front of a text are the same in lower case. -/
theorem digits_lower : digits (lower cs) = digits cs := CaseBlind.run_lower isDigit_toLower cs

/-- The letters in front of a text are as many in lower case. -/
theorem letters_lower : letters (lower cs) = letters cs := CaseBlind.run_lower isAlpha_toLower cs

theorem sign_lower : sign (lower cs) = sign cs := by
  cases cs with
  | nil => rfl
  | cons c cs => rw [lower_cons, sign, sign, Number.isSign_toLower]

/-- No letter becomes a decimal point. -/
theorem toLower_ne_point {c : Char} (hc : c ≠ '.') : c.toLower ≠ '.' :=
  toLower_ne (by decide) hc

theorem toLower_point : Char.toLower '.' = '.' := by decide

/-- A nuclide is as long in lower case. -/
theorem nuclide?_lower : nuclide? (lower cs) = nuclide? cs := by
  unfold nuclide?
  dsimp only
  rw [digits_lower, drop_lower]
  split_ifs
  · cases cs.drop (digits cs) with
    | nil => rfl
    | cons d rest =>
      by_cases hd : d = '.'
      · subst hd
        simp only [lower_cons, toLower_point, digits_lower, drop_lower, letters_lower]
      · simp [hd, toLower_ne_point hd]
  · rfl

/-- The name of a thermal law is as long in lower case. -/
theorem thermalLaw?_lower : thermalLaw? (lower cs) = thermalLaw? cs := by
  cases cs with
  | nil => rfl
  | cons c cs =>
    have hlaw : CaseBlind isLawChar := caseBlind_of_capitals (by decide)
    rw [lower_cons, thermalLaw?, thermalLaw?, hlaw.run_lower, isAlpha_toLower, drop_lower]
    dsimp only
    split_ifs
    · cases cs.drop (run isLawChar cs) with
      | nil => rfl
      | cons d rest =>
        by_cases hd : d = '.'
        · subst hd
          simp only [lower_cons, toLower_point, digits_lower, drop_lower]
          cases rest.drop (digits rest) with
          | nil => rfl
          | cons e rest => simp only [lower_cons, isAlpha_toLower]
        · simp [hd, toLower_ne_point hd]
    · rfl

/-- The letter of an exponent is told in either case. -/
theorem isE_toLower : CaseBlind fun c ↦ c == 'e' || c == 'E' := caseBlind_of_capitals (by decide)

theorem isM_toLower : CaseBlind fun c ↦ c == 'm' || c == 'M' := caseBlind_of_capitals (by decide)

theorem isC_toLower : CaseBlind fun c ↦ c == 'c' || c == 'C' := caseBlind_of_capitals (by decide)

/-- A word that starts like a number is as long in lower case. -/
theorem numberWord?_lower : numberWord? (lower cs) = numberWord? cs := by
  unfold numberWord?
  dsimp only
  rw [sign_lower, drop_lower, digits_lower, drop_lower]
  split_ifs
  · rfl
  · cases cs.drop (sign cs + digits (cs.drop (sign cs))) with
    | nil => rfl
    | cons c rest =>
      have hc : (c.toLower == 'e' || c.toLower == 'E') = (c == 'e' || c == 'E') := isE_toLower c
      simp only [lower_cons, hc, isAlpha_toLower]
      rw [← lower_cons, letters_lower]

/-- An exponent is as long in lower case. -/
theorem exponent_lower : exponent (lower cs) = exponent cs := by
  cases cs with
  | nil => rfl
  | cons c cs =>
    have hc : (c.toLower == 'e' || c.toLower == 'E') = (c == 'e' || c == 'E') := isE_toLower c
    unfold exponent
    simp only [lower_cons, hc]
    simp only [← lower_cons, drop_lower, sign_lower, digits_lower]

/-- A number is as long in lower case. -/
theorem number?_lower : number? (lower cs) = number? cs := by
  unfold number?
  dsimp only
  simp only [sign_lower, drop_lower, digits_lower, exponent_lower]
  congr 1
  cases cs.drop (sign cs + digits (cs.drop (sign cs))) with
  | nil => rfl
  | cons d rest =>
    by_cases hd : d = '.'
    · subst hd
      simp only [lower_cons, toLower_point, digits_lower]
    · simp [hd, toLower_ne_point hd]

/-- A word is as long in lower case. -/
theorem word_lower : word (lower cs) = word cs := by
  have hword : CaseBlind fun c ↦ c.isAlpha || c == '.' || c == '/' :=
    caseBlind_of_capitals (by decide)
  unfold word
  dsimp only
  rw [letters_lower, drop_lower, hword.run_lower]

/-! ## Classes -/

/-- Keywords are known in either case. -/
theorem isKeyword_lowerString (s : String) :
    Vocabulary.isKeyword (lowerString s) = Vocabulary.isKeyword s := by
  simp only [Vocabulary.isKeyword, sameWord_lowerString]

/-- Types of surfaces are known in either case. -/
theorem isSurfaceType_lowerString (s : String) :
    Vocabulary.isSurfaceType (lowerString s) = Vocabulary.isSurfaceType s := by
  simp only [Vocabulary.isSurfaceType, sameWord_lowerString]

/-- Particles are known in either case. -/
theorem isParticle_toLower : CaseBlind Vocabulary.isParticle := caseBlind_of_capitals (by decide)

/-- The letter of a shorthand is told in either case. -/
theorem classify?_lowerString (s : String) :
    ShorthandKind.classify? (lowerString s) = ShorthandKind.classify? s := by
  unfold ShorthandKind.classify?
  rw [toList_lowerString, lower_lower]

/-- Words are classified alike in either case. -/
theorem classifyWord_lowerString (mode : LexMode) (s : String) :
    classifyWord mode (lowerString s) = classifyWord mode s := by
  unfold classifyWord
  rw [classify?_lowerString, isKeyword_lowerString, isSurfaceType_lowerString, toList_lowerString]
  cases mode <;> rcases s.toList with _ | ⟨c, _ | ⟨d, rest⟩⟩ <;> simp [isParticle_toLower _]

/-- Words that start like a number are classified alike in either case. -/
theorem classifyNumberWord_lowerString (s : String) :
    classifyNumberWord (lowerString s) = classifyNumberWord s := by
  unfold classifyNumberWord
  rw [classify?_lowerString]

/-- Numbers are classified alike in either case. -/
theorem classifyNumber_lowerString (s : String) :
    classifyNumber (lowerString s) = classifyNumber s := by
  unfold classifyNumber
  rw [Number.readReal?_lowerString]

/-- A word ends at the same place in lower case. -/
theorem endsWord_lower : endsWord (lower cs) = endsWord cs := by
  have halphanum : CaseBlind Char.isAlphanum := caseBlind_of_capitals (by decide)
  cases cs with
  | nil => rfl
  | cons c cs => rw [lower_cons, endsWord, endsWord, halphanum]

/-- A number and the word that it runs into are one lexeme in either case. -/
theorem numberLexeme_lower (n : Nat) : numberLexeme (lower cs) n = numberLexeme cs n := by
  unfold numberLexeme
  dsimp only
  rw [take_lower, ← lowerString_ofList, classifyNumber_lowerString, drop_lower]
  cases cs.drop n with
  | nil => rfl
  | cons c rest =>
    have hc : (c.toLower == 'm' || c.toLower == 'M') = (c == 'm' || c == 'M') := isM_toLower c
    simp only [lower_cons, hc, endsWord_lower]

/-! ## Lexemes -/

variable (mode : LexMode) (margin : Option Nat) (c : Char)

theorem isAsciiBlank_toLower : CaseBlind isAsciiBlank := caseBlind_of_capitals (by decide)

theorem endsLine_lower : endsLine (lower cs) = endsLine cs := by
  cases cs with
  | nil => rfl
  | cons c cs => rw [lower_cons, endsLine, endsLine, isAsciiBlank_toLower]

/-- A comment line starts with its letter in either case. -/
theorem startsComment_lower :
    startsComment margin c.toLower (lower cs) = startsComment margin c cs := by
  have hc : (c.toLower == 'c' || c.toLower == 'C') = (c == 'c' || c == 'C') := isC_toLower c
  unfold startsComment
  rw [hc, endsLine_lower]

/-- A comment ends at the end of its line, in lower case as well. -/
theorem toLineEnd_lower : toLineEnd (lower cs) = toLineEnd cs :=
  CaseBlind.run_lower (caseBlind_of_capitals (by decide)) cs

/-- The name of a file is as long in lower case. -/
theorem fileLexeme_lower : fileLexeme c.toLower (lower cs) = fileLexeme c cs := by
  have hequals : (c.toLower == '=') = (c == '=') := caseBlind_beq (by decide) c
  have hampersand : (c.toLower == '&') = (c == '&') := caseBlind_beq (by decide) c
  have hname : CaseBlind fun d ↦ !isAsciiBlank d && d != '=' && d != '$' :=
    caseBlind_of_capitals (by decide)
  unfold fileLexeme
  dsimp only
  rw [hequals, hampersand, endsLine_lower, hname.run_lower, ← lower_cons, take_lower,
    ← lowerString_ofList, isKeyword_lowerString]

/-- Marks have no letters. -/
theorem symbolLexeme?_lower :
    symbolLexeme? mode c.toLower (lower cs) = symbolLexeme? mode c cs := by
  have hsymbol : CaseBlind isParticleSymbol := caseBlind_of_capitals (by decide)
  have hpunctuation : CaseBlind punctuation? := caseBlind_of_capitals (by decide)
  unfold symbolLexeme?
  rw [hsymbol, hpunctuation, hsymbol.run_lower]

/-- A word is the same kind of lexeme, of the same length, in either case. -/
theorem wordLexeme?_lower : wordLexeme? mode c.toLower (lower cs) = wordLexeme? mode c cs := by
  unfold wordLexeme?
  dsimp only
  rw [← lower_cons, nuclide?_lower, thermalLaw?_lower, numberWord?_lower, number?_lower, word_lower]
  simp only [take_lower, ← lowerString_ofList, classifyNumberWord_lowerString,
    classifyWord_lowerString, numberLexeme_lower, symbolLexeme?_lower]

/-- The lexeme at the start of a text is of the same kind and length in either case. -/
theorem lexeme?_lower : lexeme? mode margin c.toLower (lower cs) = lexeme? mode margin c cs := by
  have hcomplement : (c.toLower == '#') = (c == '#') := caseBlind_beq (by decide) c
  have hdollar : (c.toLower == '$') = (c == '$') := caseBlind_beq (by decide) c
  unfold lexeme?
  rw [hcomplement, hdollar, startsComment_lower, isAsciiBlank_toLower c, toLineEnd_lower,
    isAsciiBlank_toLower.run_lower, fileLexeme_lower, wordLexeme?_lower]

/-- Where there is a letter there is a lexeme. -/
theorem toLower_of_lexeme?_eq_none {mode : LexMode} {margin : Option Nat} {c : Char}
    {cs : List Char} (h : lexeme? mode margin c cs = none) : c.toLower = c := by
  rcases toLower_cases c with hc | ⟨-, hge, hle⟩
  · exact hc
  have halpha : c.isAlpha = true := by
    have hall : capitals.all Char.isAlpha = true := by decide
    exact List.all_eq_true.mp hall c (mem_capitals hge hle)
  have hword : 0 < word (c :: cs) := by
    have hletters : 0 < letters (c :: cs) := by
      rw [letters, run, List.takeWhile_cons_of_pos halpha, List.length_cons]
      exact Nat.succ_pos _
    unfold word
    dsimp only
    rw [if_neg (by simpa using hletters.ne')]
    exact Nat.add_pos_left hletters _
  unfold lexeme? at h
  split_ifs at h
  unfold wordLexeme? at h
  dsimp only at h
  rw [if_pos hword] at h
  repeat' split at h
  all_goals cases h

/-! ## Tokens -/

/-- The margin behind a text does not depend on the case of letters. -/
theorem marginAfter_lower : marginAfter margin (lower cs) = marginAfter margin cs := by
  have hstep (m : Option Nat) : CaseBlind (marginStep m) := fun c ↦ by
    have hnewline : (c.toLower == '\n') = (c == '\n') := caseBlind_beq (by decide) c
    have hspace : (c.toLower == ' ') = (c == ' ') := caseBlind_beq (by decide) c
    rw [marginStep, marginStep, hnewline, hspace]
  induction cs generalizing margin with
  | nil => rfl
  | cons c cs ih => exact (congrArg (marginAfter · (lower cs)) (hstep margin c)).trans (ih _)

/-- The position behind a text does not depend on the case of letters. -/
theorem advance_lower (p : Position) : p.advance (lower cs) = p.advance cs := by
  have hstep (p : Position) : CaseBlind p.step := fun c ↦ by
    have hnewline : (c.toLower == '\n') = (c == '\n') := caseBlind_beq (by decide) c
    rw [Bool.eq_iff_iff, beq_iff_eq, beq_iff_eq] at hnewline
    simp only [Position.step, hnewline, utf8Size_toLower c]
  induction cs generalizing p with
  | nil => rfl
  | cons c cs ih => exact (congrArg (Position.advance · (lower cs)) (hstep p c)).trans (ih _)

/-- The span of a text does not depend on the case of letters. -/
theorem ofText_lower (p : Position) : Span.ofText p (lower cs) = Span.ofText p cs := by
  rw [Span.ofText, Span.ofText, advance_lower]

/-- The tokens of a text in small letters are its tokens in small letters. -/
theorem tokensFrom_lower (p : Position) (count : Nat) :
    tokensFrom mode margin p count (lower cs) =
      (tokensFrom mode margin p count cs).map (List.map Token.lowered) := by
  induction hn : cs.length using Nat.strong_induction_on generalizing margin p count cs with
  | _ n ih =>
    cases cs with
    | nil =>
      rw [lower_nil, tokensFrom]
      rfl
    | cons c cs =>
      rw [lower_cons, tokensFrom, tokensFrom]
      split_ifs with hcount
      · rfl
      rw [lexeme?_lower]
      cases hlex : lexeme? mode margin c cs with
      | none =>
        dsimp only
        rw [toLower_of_lexeme?_eq_none hlex]
        rfl
      | some lexeme =>
        obtain ⟨kind, k⟩ := lexeme
        dsimp only
        rw [take_lower, drop_lower, ← lower_cons, byteSize_lower, ofText_lower, marginAfter_lower,
          ih (cs.drop (k - 1)).length (by simp at hn ⊢; omega) _ _ _ _ rfl]
        split_ifs with hlong
        · rfl
        · cases tokensFrom mode (marginAfter margin (c :: cs.take (k - 1)))
            (Span.ofText p (c :: cs.take (k - 1))).stop (count + 1) (cs.drop (k - 1)) with
          | error e => rfl
          | ok ts =>
            rw [← lowerString_ofList]
            rfl

end Lexer

/-- Texts that are the same words have the same tokens up to letter case. -/
theorem tokenize_lowerString (mode : LexMode) (source : String) :
    tokenize mode (lowerString source) = (tokenize mode source).map (List.map Token.lowered) := by
  rw [tokenize, toList_lowerString]
  exact Lexer.tokensFrom_lower _ mode _ _ _

end TransportDeck
