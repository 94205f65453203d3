import Mathlib.Data.List.TakeWhile
import TransportDeck.Proofs.Token.Lexing

/-!
# Tokens as a partition

Every lexeme is a piece of the text in front of the lexer that is not empty.  So the tokens cut a
record into pieces that adjoin each other, and their spans tell where in the record they lie.  The
same holds of the part of a record before the place where lexing fails.
-/

namespace TransportDeck

open Text

namespace Lexer

/-! ## Lengths -/

/-- What is left of a list tells how long the list is. -/
theorem exists_of_drop_eq_cons {n : Nat} {cs rest : List Char} {c : Char}
    (h : cs.drop n = c :: rest) : cs.length = n + (rest.length + 1) := by
  have hlength := congrArg List.length h
  rw [List.length_drop, List.length_cons] at hlength
  omega

/-- A run of characters behind the first few does not reach over the end of the text. -/
theorem run_drop_le (p : Char → Bool) {n : Nat} {cs : List Char} (hn : n ≤ cs.length) :
    n + run p (cs.drop n) ≤ cs.length := by
  have := run_le_length p (cs.drop n)
  rw [List.length_drop] at this
  omega

/-- The run is what passes the test. -/
theorem take_run (p : Char → Bool) (cs : List Char) : cs.take (run p cs) = cs.takeWhile p :=
  (List.prefix_iff_eq_take.mp (List.takeWhile_prefix p)).symm

/-- Behind the run stands what is left. -/
theorem drop_run (p : Char → Bool) (cs : List Char) : cs.drop (run p cs) = cs.dropWhile p := by
  nth_rewrite 2 [← List.takeWhile_append_dropWhile (p := p) (l := cs)]
  exact List.drop_left

theorem sign_le_length (cs : List Char) : sign cs ≤ cs.length := by
  cases cs with
  | nil => exact le_rfl
  | cons c cs =>
    rw [sign, List.length_cons]
    split_ifs <;> omega

/-- The length is that of a nonempty piece of a text. -/
def Fits (cs : List Char) (n : Nat) : Prop := 0 < n ∧ n ≤ cs.length

/-- A nuclide is not empty, and lies inside the text. -/
theorem fits_nuclide? {cs : List Char} {n : Nat} (h : nuclide? cs = some n) : Fits cs n := by
  unfold nuclide? at h
  dsimp only at h
  split_ifs at h
  split at h
  · next rest hrest =>
    have hlength := exists_of_drop_eq_cons hrest
    have hletters := run_le_length Char.isAlpha (rest.drop (digits rest))
    rw [List.length_drop] at hletters
    change letters (rest.drop (digits rest)) ≤ _ at hletters
    split_ifs at h with htwo hthree
    · obtain rfl := Option.some.inj h
      simp only [Bool.and_eq_true, beq_iff_eq, decide_eq_true_eq] at htwo
      exact ⟨by omega, by omega⟩
    · obtain rfl := Option.some.inj h
      simp only [Bool.and_eq_true, beq_iff_eq, decide_eq_true_eq] at hthree
      exact ⟨by omega, by omega⟩
  · cases h

/-- The name of a thermal law is not empty, and lies inside the text. -/
theorem fits_thermalLaw? {cs : List Char} {n : Nat} (h : thermalLaw? cs = some n) : Fits cs n := by
  unfold thermalLaw? at h
  split at h
  · cases h
  next c cs =>
  dsimp only at h
  split_ifs at h
  split at h
  swap
  · cases h
  next rest hrest =>
  split at h
  swap
  · cases h
  next d tail htail =>
  split_ifs at h
  obtain rfl := Option.some.inj h
  have hrest := exists_of_drop_eq_cons hrest
  have htail := exists_of_drop_eq_cons htail
  exact ⟨by omega, by rw [List.length_cons]; omega⟩

/-- A word that starts like a number is not empty, and lies inside the text. -/
theorem fits_numberWord? {cs : List Char} {n : Nat} (h : numberWord? cs = some n) : Fits cs n := by
  refine ⟨numberWord?_pos h, ?_⟩
  unfold numberWord? at h
  dsimp only at h
  split_ifs at h
  split at h
  · next c rest hrest =>
    split_ifs at h
    obtain rfl := Option.some.inj h
    have hlength := exists_of_drop_eq_cons hrest
    have hletters := run_le_length Char.isAlpha (c :: rest)
    rw [List.length_cons] at hletters
    change letters (c :: rest) ≤ _ at hletters
    omega
  · cases h

theorem exponent_le_length (cs : List Char) : exponent cs ≤ cs.length := by
  unfold exponent
  extract_lets l s n
  have hl : l ≤ cs.length := by
    unfold l
    split
    · rw [List.length_cons]
      split_ifs <;> omega
    · exact Nat.zero_le _
  have hs : s ≤ cs.length - l := by
    rw [← List.length_drop]
    exact sign_le_length _
  have hn : l + s + n ≤ cs.length := run_drop_le Char.isDigit (by omega)
  split_ifs <;> omega

/-- A number is not empty, and lies inside the text. -/
theorem fits_number? {cs : List Char} {n : Nat} (h : number? cs = some n) : Fits cs n := by
  unfold number? at h
  extract_lets s ds mantissa at h
  obtain ⟨k, hk, rfl⟩ := Option.map_eq_some_iff.mp h
  have hmantissa : Fits cs k := by
    unfold mantissa at hk
    split at hk
    · next rest hrest =>
      have hlength := exists_of_drop_eq_cons hrest
      have hdigits : digits rest ≤ rest.length := run_le_length _ _
      dsimp only at hk
      split_ifs at hk
      obtain rfl := Option.some.inj hk
      exact ⟨by omega, by omega⟩
    · split_ifs at hk with hds
      obtain rfl := Option.some.inj hk
      rw [beq_iff_eq] at hds
      have hdigits : ds ≤ (cs.drop s).length := run_le_length _ _
      rw [List.length_drop] at hdigits
      exact ⟨by omega, by omega⟩
  have hexponent := exponent_le_length (cs.drop k)
  rw [List.length_drop] at hexponent
  exact ⟨Nat.lt_of_lt_of_le hmantissa.1 (Nat.le_add_right _ _), by have := hmantissa.2; omega⟩

theorem word_le_length (cs : List Char) : word cs ≤ cs.length := by
  unfold word
  dsimp only
  split_ifs
  · exact Nat.zero_le _
  · exact run_drop_le _ (run_le_length _ _)

/-- A number and the word that it runs into lie inside the text. -/
theorem fits_numberLexeme {cs : List Char} {n : Nat} (h : Fits cs n) :
    Fits cs (numberLexeme cs n).2 := by
  unfold numberLexeme
  split
  · next c rest hrest =>
    split_ifs
    · have hlength := exists_of_drop_eq_cons hrest
      exact ⟨Nat.succ_pos n, by dsimp only; omega⟩
    · exact h
  · exact h

/-! ## Lexemes -/

/-- Neither a run of blanks nor a comment. -/
def IsSolid (kind : TokenKind) : Prop := kind ≠ .space ∧ kind.isComment = false

instance (kind : TokenKind) : Decidable (IsSolid kind) := inferInstanceAs (Decidable (_ ∧ _))

theorem isSolid_shorthand (kind : ShorthandKind) : IsSolid (.shorthand kind) := by
  cases kind <;> decide

/-- A number is neither blank nor a mark of layout. -/
theorem isSolid_classifyNumber (text : String) : IsSolid (classifyNumber text) := by
  unfold classifyNumber
  split
  · split_ifs <;> decide
  · decide

/-- A word that starts like a number is neither blank nor a mark of layout. -/
theorem isSolid_classifyNumberWord (text : String) : IsSolid (classifyNumberWord text) := by
  unfold classifyNumberWord
  split
  · exact isSolid_shorthand _
  · decide

/-- A word is neither blank nor a mark of layout. -/
theorem isSolid_classifyWord (mode : LexMode) (text : String) :
    IsSolid (classifyWord mode text) := by
  unfold classifyWord
  split
  · exact isSolid_shorthand _
  · split_ifs
    · decide
    · decide
    · split
      · split_ifs <;> decide
      · split_ifs <;> decide
      · decide

theorem isSolid_numberLexeme (cs : List Char) (n : Nat) : IsSolid (numberLexeme cs n).1 := by
  unfold numberLexeme
  split
  · split_ifs
    · exact isSolid_shorthand _
    · exact isSolid_classifyNumber _
  · exact isSolid_classifyNumber _

/-- What is known of a lexeme that starts with `c`. -/
structure IsLexeme (c : Char) (cs : List Char) (kind : TokenKind) (n : Nat) : Prop where
  fits : Fits (c :: cs) n
  comment : kind.isComment = true → '\n' ∉ c :: cs.take (n - 1)
  /-- A run of blanks is as long as it can be. -/
  blank : kind = .space → isAsciiBlank c = true ∧
    ∀ d ∈ (cs.drop (n - 1)).head?, isAsciiBlank d = false

/-- A solid kind makes a lexeme of any part of the text that is not empty. -/
theorem IsLexeme.of_isSolid {c : Char} {cs : List Char} {kind : TokenKind} {n : Nat}
    (h : IsSolid kind) (hfits : Fits (c :: cs) n) : IsLexeme c cs kind n where
  fits := hfits
  comment hcomment := absurd h.2 (by simp [hcomment])
  blank hblank := absurd hblank h.1

/-- A character and the run behind it are not empty, and lie inside the text. -/
theorem fits_succ {p : Char → Bool} (c : Char) (cs : List Char) :
    Fits (c :: cs) (1 + run p cs) := by
  have := run_le_length p cs
  exact ⟨by omega, by rw [List.length_cons]; omega⟩

/-- A comment, or a mark, reaches up to the end of its line. -/
theorem isLexeme_toLineEnd {c : Char} (hc : c ≠ '\n') (cs : List Char) {kind : TokenKind}
    (hkind : kind ≠ .space) : IsLexeme c cs kind (1 + toLineEnd cs) where
  fits := fits_succ c cs
  comment _ := by
    have htaken : cs.take (toLineEnd cs) = cs.takeWhile (· != '\n') :=
      (List.prefix_iff_eq_take.mp (List.takeWhile_prefix _)).symm
    rw [Nat.add_sub_cancel_left, htaken, List.mem_cons, not_or]
    refine ⟨hc.symm, fun hmem ↦ ?_⟩
    simpa using List.mem_takeWhile_imp hmem
  blank h := absurd h hkind

/-- A mark is solid, and lies inside the text. -/
theorem isSolid_symbolLexeme? {mode : LexMode} {c : Char} {cs : List Char} {kind : TokenKind}
    {n : Nat} (h : symbolLexeme? mode c cs = some (kind, n)) : IsSolid kind ∧ Fits (c :: cs) n := by
  unfold symbolLexeme? at h
  split_ifs at h
  · obtain ⟨rfl, rfl⟩ := Prod.mk.inj (Option.some.inj h)
    exact ⟨by decide, fits_succ c cs⟩
  · obtain ⟨kind, hkind, heq⟩ := Option.map_eq_some_iff.mp h
    obtain ⟨rfl, rfl⟩ := Prod.mk.inj heq
    refine ⟨?_, Nat.one_pos, Nat.succ_le_succ (Nat.zero_le _)⟩
    unfold punctuation? at hkind
    split at hkind <;> cases hkind <;> decide

/-- A word is neither a comment nor blank. -/
theorem isSolid_wordLexeme? {mode : LexMode} {c : Char} {cs : List Char} {kind : TokenKind}
    {n : Nat} (h : wordLexeme? mode c cs = some (kind, n)) : IsSolid kind ∧ Fits (c :: cs) n := by
  unfold wordLexeme? at h
  dsimp only at h
  split at h
  · next k hk =>
    obtain ⟨rfl, rfl⟩ := Prod.mk.inj (Option.some.inj h)
    exact ⟨by decide, fits_nuclide? hk⟩
  split at h
  · next k hk =>
    obtain ⟨rfl, rfl⟩ := Prod.mk.inj (Option.some.inj h)
    exact ⟨by decide, fits_thermalLaw? hk⟩
  split at h
  · next k hk =>
    obtain ⟨rfl, rfl⟩ := Prod.mk.inj (Option.some.inj h)
    exact ⟨isSolid_classifyNumberWord _, fits_numberWord? hk⟩
  split at h
  · next k hk =>
    have hlexeme := Option.some.inj h
    have hfits := fits_numberLexeme (fits_number? hk)
    have hsolid := isSolid_numberLexeme (c :: cs) k
    rw [hlexeme] at hfits hsolid
    exact ⟨hsolid, hfits⟩
  split_ifs at h with hn
  · obtain ⟨rfl, rfl⟩ := Prod.mk.inj (Option.some.inj h)
    exact ⟨isSolid_classifyWord _ _, hn, word_le_length _⟩
  · exact isSolid_symbolLexeme? h

/-- A word is a lexeme, or a shorthand, or a number. -/
theorem isLexeme_wordLexeme? {mode : LexMode} {c : Char} {cs : List Char} {kind : TokenKind}
    {n : Nat} (h : wordLexeme? mode c cs = some (kind, n)) : IsLexeme c cs kind n :=
  .of_isSolid (isSolid_wordLexeme? h).1 (isSolid_wordLexeme? h).2

/-- The name of a file is solid, and lies inside the text. -/
theorem isSolid_fileLexeme (c : Char) (cs : List Char) :
    IsSolid (fileLexeme c cs).1 ∧ Fits (c :: cs) (fileLexeme c cs).2 := by
  have hone : Fits (c :: cs) 1 := ⟨Nat.one_pos, Nat.succ_le_succ (Nat.zero_le _)⟩
  unfold fileLexeme
  dsimp only
  split_ifs
  · exact ⟨by decide, hone⟩
  · exact ⟨by decide, hone⟩
  · exact ⟨show IsSolid .keyword by decide, fits_succ c cs⟩
  · exact ⟨show IsSolid .fileName by decide, fits_succ c cs⟩

theorem isLexeme_fileLexeme (c : Char) (cs : List Char) :
    IsLexeme c cs (fileLexeme c cs).1 (fileLexeme c cs).2 :=
  .of_isSolid (isSolid_fileLexeme c cs).1 (isSolid_fileLexeme c cs).2

/-- Blanks make up one lexeme. -/
theorem isLexeme_blanks {c : Char} (hc : isAsciiBlank c = true) (cs : List Char) :
    IsLexeme c cs .space (1 + run isAsciiBlank cs) where
  fits := fits_succ c cs
  comment h := by cases h
  blank _ := by
    refine ⟨hc, fun d hd ↦ ?_⟩
    rw [Nat.add_sub_cancel_left, drop_run] at hd
    have hhead := List.head?_dropWhile_not isAsciiBlank cs
    rw [Option.mem_def.mp hd] at hhead
    simpa using hhead

/-- Every lexeme is a nonempty piece of the text; a comment lies in one line, and behind a run of
blanks there is none. -/
theorem isLexeme_of_lexeme? {mode : LexMode} {margin : Option Nat} {c : Char} {cs : List Char}
    {kind : TokenKind} {n : Nat} (h : lexeme? mode margin c cs = some (kind, n)) :
    IsLexeme c cs kind n := by
  unfold lexeme? at h
  split_ifs at h with hmark hdollar hcomment hblank
  · obtain ⟨rfl, rfl⟩ := Prod.mk.inj (Option.some.inj h)
    exact .of_isSolid (by decide) ⟨Nat.one_pos, Nat.succ_le_succ (Nat.zero_le _)⟩
  · obtain ⟨rfl, rfl⟩ := Prod.mk.inj (Option.some.inj h)
    obtain rfl : c = '$' := by simpa using hdollar
    exact isLexeme_toLineEnd (by decide) cs (by decide)
  · obtain ⟨rfl, rfl⟩ := Prod.mk.inj (Option.some.inj h)
    refine isLexeme_toLineEnd ?_ cs (by decide)
    rintro rfl
    unfold startsComment at hcomment
    split at hcomment <;> cases hcomment
  · obtain ⟨rfl, rfl⟩ := Prod.mk.inj (Option.some.inj h)
    exact isLexeme_blanks hblank cs
  · have hlexeme := isLexeme_fileLexeme c cs
    rwa [Option.some.inj h] at hlexeme
  · exact isLexeme_wordLexeme? h

/-! ## Cuts -/

/-- The tokens of a text from a position on, and what is left of it behind them.  Each is the lexeme
in front of the lexer, as long as its scanner says. -/
inductive Cuts (mode : LexMode) :
    Option Nat → Position → List Char → List Token → List Char → Prop where
  | done {margin : Option Nat} {p : Position} {left : List Char} : Cuts mode margin p left [] left
  | token {margin : Option Nat} {p : Position} {c : Char} {cs left : List Char} {kind : TokenKind}
      {n : Nat} {ts : List Token} (lexeme : lexeme? mode margin c cs = some (kind, n))
      (fits : Fits (c :: cs) n)
      (rest : Cuts mode (marginAfter margin ((c :: cs).take n)) (p.advance ((c :: cs).take n))
        ((c :: cs).drop n) ts left) :
      Cuts mode margin p (c :: cs)
        (⟨kind, String.ofList ((c :: cs).take n), .ofText p ((c :: cs).take n)⟩ :: ts) left

/-- What the error says is so, behind the text `before` and its `count` tokens. -/
inductive FailsBehind (mode : LexMode) (margin : Option Nat) (p : Position) (before : List Char)
    (count : Nat) (left : List Char) : LexError → Prop where
  | invalidCharacter {c : Char} {cs : List Char} (left_eq : left = c :: cs)
      (no_lexeme : lexeme? mode (marginAfter margin before) c cs = none) :
      FailsBehind mode margin p before count left
        (.invalidCharacter c (.ofText (p.advance before) [c]))
  | tokenTooLong {lexeme rest : List Char} (left_eq : left = lexeme ++ rest)
      (tooLong : Limits.tokenBytes < byteSize lexeme) :
      FailsBehind mode margin p before count left
        (.tokenTooLong (byteSize lexeme) (.ofText (p.advance before) lexeme))
  | tooManyTokens (more : left ≠ []) (enough : Limits.tokens ≤ count) :
      FailsBehind mode margin p before count left (.tooManyTokens count)

/-- An error behind some more text is an error behind all of the text. -/
theorem FailsBehind.append {mode : LexMode} {margin : Option Nat} {p : Position}
    {taken before left : List Char} {count : Nat} {e : LexError}
    (h : FailsBehind mode (marginAfter margin taken) (p.advance taken) before count left e) :
    FailsBehind mode margin p (taken ++ before) count left e := by
  cases h with
  | invalidCharacter left_eq no_lexeme =>
    rw [← Position.advance_append]
    refine .invalidCharacter left_eq ?_
    rwa [marginAfter, List.foldl_append]
  | tokenTooLong left_eq tooLong =>
    rw [← Position.advance_append]
    exact .tokenTooLong left_eq tooLong
  | tooManyTokens more enough => exact .tooManyTokens more enough

/-- The text is cut to its end, or up to the place where lexing fails. -/
theorem cuts_tokensFrom (mode : LexMode) (margin : Option Nat) (p : Position) (count : Nat)
    (cs : List Char) : match tokensFrom mode margin p count cs with
      | .ok ts => Cuts mode margin p cs ts []
      | .error e => ∃ before left ts, cs = before ++ left ∧ Cuts mode margin p cs ts left ∧
          FailsBehind mode margin p before (count + ts.length) left e := by
  induction hn : cs.length using Nat.strong_induction_on generalizing margin p count cs with
  | _ n ih =>
    cases cs with
    | nil =>
      rw [tokensFrom]
      exact .done
    | cons c cs =>
      rw [tokensFrom]
      by_cases hcount : count ≥ Limits.tokens
      · rw [if_pos hcount]
        exact ⟨[], c :: cs, [], rfl, .done, .tooManyTokens (List.cons_ne_nil _ _) hcount⟩
      rw [if_neg hcount]
      cases hlex : lexeme? mode margin c cs with
      | none => exact ⟨[], c :: cs, [], rfl, .done, .invalidCharacter rfl hlex⟩
      | some lexeme =>
        obtain ⟨kind, k⟩ := lexeme
        have hfits := (isLexeme_of_lexeme? hlex).fits
        obtain ⟨k, rfl⟩ := Nat.exists_eq_succ_of_ne_zero hfits.1.ne'
        have hsplit : c :: cs = (c :: cs).take (k + 1) ++ (c :: cs).drop (k + 1) :=
          (List.take_append_drop _ _).symm
        simp only [Nat.succ_eq_add_one, Nat.add_sub_cancel, ← List.take_succ_cons, Span.ofText]
        split_ifs with hlong
        · simp only [Bool.and_eq_true, decide_eq_true_eq] at hlong
          exact ⟨[], c :: cs, [], rfl, .done, .tokenTooLong hsplit hlong.1⟩
        have hlt : ((c :: cs).drop (k + 1)).length < n := by
          subst hn
          simp only [List.length_drop, List.length_cons]
          omega
        have hrest := ih _ hlt (marginAfter margin ((c :: cs).take (k + 1)))
          (p.advance ((c :: cs).take (k + 1))) (count + 1) ((c :: cs).drop (k + 1)) rfl
        rw [List.drop_succ_cons] at hrest
        generalize tokensFrom mode _ _ (count + 1) (cs.drop k) = outcome at hrest ⊢
        cases outcome with
        | ok ts => exact .token hlex hfits hrest
        | error e =>
          obtain ⟨before, left, ts, hdrop, hcuts, hfails⟩ := hrest
          refine ⟨(c :: cs).take (k + 1) ++ before, left, _, ?_, .token hlex hfits hcuts, ?_⟩
          · rw [List.append_assoc, ← hdrop]
            exact hsplit
          · rw [List.length_cons, Nat.add_comm ts.length, ← Nat.add_assoc]
            exact hfails.append

namespace Cuts

variable {mode : LexMode} {margin : Option Nat} {p : Position}
  {cs left : List Char} {ts : List Token}

/-- The tokens of a cut and what is left make up the text. -/
theorem eq_append (h : Cuts mode margin p cs ts left) : cs = (textOf ts).toList ++ left := by
  induction h with
  | done => rfl
  | token _ _ _ ih =>
    rw [textOf_cons, String.toList_append, String.toList_ofList, List.append_assoc, ← ih,
      List.take_append_drop]

/-- The first token starts where the cut starts. -/
theorem start_eq (h : Cuts mode margin p cs ts left) : ∀ t ∈ ts.head?, t.span.start = p := by
  cases h with
  | done => simp
  | token => simp [Span.ofText]

/-- The tokens start with a run of blanks only if the text does. -/
theorem isAsciiBlank_of_space (h : Cuts mode margin p cs ts left) {t : Token} (ht : t ∈ ts.head?)
    (hspace : t.kind = .space) : ∃ c ∈ cs.head?, isAsciiBlank c = true := by
  cases h with
  | done => cases ht
  | token lexeme =>
    obtain rfl := Option.mem_some.mp ht
    exact ⟨_, rfl, ((isLexeme_of_lexeme? lexeme).blank hspace).1⟩

end Cuts

/-! ## Partitions -/

/-- The tokens cut the text `cs`, which starts at `p`, into pieces that adjoin each other. -/
structure Partitions (p : Position) (cs : List Char) (ts : List Token) : Prop where
  text_eq : textOf ts = String.ofList cs
  nonempty : ∀ t ∈ ts, t.text ≠ ""
  starts : ∀ t ∈ ts.head?, t.span.start = p
  adjoin : ts.IsChain fun t u ↦ u.span.start = t.span.stop
  stops : ∀ before t after, ts = before ++ t :: after →
    t.span.stop = p.advance (textOf (before ++ [t])).toList
  comment : ∀ t ∈ ts, t.kind.isComment = true → '\n' ∉ t.text.toList
  blanks : ts.IsChain fun t u ↦ ¬(t.kind = .space ∧ u.kind = .space)

/-- The tokens of a cut partition the text that they are cut from. -/
theorem Cuts.partitions {mode : LexMode} {margin : Option Nat} {p : Position} {cs left : List Char}
    {ts : List Token} (h : Cuts mode margin p cs ts left) :
    Partitions p (textOf ts).toList ts := by
  induction h with
  | done =>
    exact ⟨by simp, by simp, by simp, .nil, by simp, by simp, .nil⟩
  | @token margin p c cs left kind n ts lexeme fits rest ih =>
    have hlexeme := isLexeme_of_lexeme? lexeme
    obtain ⟨n, rfl⟩ := Nat.exists_eq_succ_of_ne_zero fits.1.ne'
    refine ⟨String.ofList_toList.symm, ?_, ?_, ?_, ?_, ?_, ?_⟩
    · rintro t (_ | ⟨_, ht⟩)
      · simp
      · exact ih.nonempty t ht
    · simp [Span.ofText]
    · exact List.isChain_cons.mpr ⟨rest.start_eq, ih.adjoin⟩
    · intro before t after heq
      cases before with
      | nil =>
        obtain ⟨rfl, rfl⟩ := List.cons.inj heq
        simp [Span.ofText]
      | cons u before =>
        obtain ⟨rfl, rfl⟩ := List.cons.inj heq
        rw [ih.stops before t after rfl, List.cons_append, textOf_cons, String.toList_append,
          Position.advance_append, String.toList_ofList]
    · rintro t (_ | ⟨_, ht⟩)
      · simpa using hlexeme.comment
      · exact ih.comment t ht
    · refine List.isChain_cons.mpr ⟨fun u hu ⟨hkind, hspace⟩ ↦ ?_, ih.blanks⟩
      obtain ⟨d, hd, hblank⟩ := rest.isAsciiBlank_of_space hu hspace
      have := (hlexeme.blank hkind).2 d hd
      rw [hblank] at this
      cases this

/-- The tokens of a record are its lexemes and partition it, and so they do up to the place where
lexing fails. -/
theorem tokenize_partitions (mode : LexMode) (source : String) :
    match tokenize mode source with
    | .ok ts => Cuts mode (some 0) .start source.toList ts [] ∧ Partitions .start source.toList ts
    | .error e => ∃ before left ts, source.toList = before ++ left ∧
        Cuts mode (some 0) .start source.toList ts left ∧ Partitions .start before ts ∧
        FailsBehind mode (some 0) .start before ts.length left e := by
  have h := cuts_tokensFrom mode (some 0) .start 0 source.toList
  rw [tokenize]
  generalize tokensFrom mode (some 0) .start 0 source.toList = outcome at h ⊢
  cases outcome with
  | ok ts =>
    have htext := h.eq_append
    rw [List.append_nil] at htext
    exact ⟨h, htext ▸ h.partitions⟩
  | error e =>
    obtain ⟨before, left, ts, heq, hcuts, hfails⟩ := h
    obtain rfl : before = (textOf ts).toList :=
      List.append_cancel_right (heq.symm.trans hcuts.eq_append)
    rw [Nat.zero_add] at hfails
    exact ⟨_, left, ts, heq, hcuts, hcuts.partitions, hfails⟩

end Lexer

end TransportDeck
