import TransportDeck.Proofs.Number.Integers
import TransportDeck.Proofs.Token.Lexing

/-!
# The lexemes of a geometry

What the lexer makes of the numbers and marks that a geometry is written with, and of a text that is
put together from them.  A lexeme ends where the text goes on with a character that cannot belong to
it.
-/

namespace TransportDeck.Lexer

open Text

/-! ## Lexemes -/

/-- A run of characters ends in front of one that does not pass the test. -/
theorem run_append {p : Char → Bool} {cs rest : List Char} (hcs : ∀ c ∈ cs, p c = true)
    (hrest : ∀ c ∈ rest.head?, p c = false) : run p (cs ++ rest) = cs.length := by
  have hstop : rest.takeWhile p = [] := by
    cases rest with
    | nil => rfl
    | cons c rest => exact List.takeWhile_cons_of_neg (by simp [hrest c rfl])
  rw [run, List.takeWhile_append_of_pos hcs, hstop, List.append_nil]

/-- A number cannot go on with the text. -/
def EndsNumber (rest : List Char) : Prop := ∀ c ∈ rest.head?, c = ' ' ∨ c = ')' ∨ c = ':'

/-- No blank stands in front. -/
def StartsSolid (rest : List Char) : Prop := ∀ c ∈ rest.head?, isAsciiBlank c = false

section

variable {rest : List Char} {margin : Option Nat}

/-- What ends a number passes no test that fails for a blank, a parenthesis and a colon. -/
theorem EndsNumber.not_of {p : Char → Bool} (h : EndsNumber rest) (hspace : p ' ' = false)
    (hclose : p ')' = false) (hcolon : p ':' = false) : ∀ c ∈ rest.head?, p c = false := by
  intro c hc
  rcases h c hc with rfl | rfl | rfl
  · exact hspace
  · exact hclose
  · exact hcolon

/-- Only the letter `c` starts a comment line. -/
theorem startsComment_eq_false {c : Char} (h : (c == 'c' || c == 'C') = false) (cs : List Char) :
    startsComment margin c cs = false := by
  unfold startsComment
  split
  · rw [h, Bool.false_and, Bool.false_and]
  · rfl

/-- The mark of a complement is a lexeme of its own. -/
theorem lexeme?_complement (rest : List Char) :
    lexeme? .cell margin '#' rest = some (.complement, 1) := rfl

/-- A blank in front of something solid is a lexeme of its own. -/
theorem lexeme?_space (h : StartsSolid rest) :
    lexeme? .cell margin ' ' rest = some (.space, 1) := by
  have hnil : ∀ c ∈ ([] : List Char), isAsciiBlank c = true := by simp
  have hrun : run isAsciiBlank rest = 0 := run_append hnil h
  have hcomment : startsComment margin ' ' rest = false := startsComment_eq_false rfl rest
  simp [lexeme?, hcomment, isAsciiBlank, hrun]

/-- A character that starts no number and no word is punctuation. -/
theorem lexeme?_mark {c : Char} {kind : TokenKind} (hc : c = '(' ∨ c = ')' ∨ c = ':')
    (hkind : punctuation? c = some kind) (rest : List Char) :
    lexeme? .cell margin c rest = some (kind, 1) := by
  have hcomment : startsComment margin c rest = false :=
    startsComment_eq_false (by rcases hc with rfl | rfl | rfl <;> rfl) rest
  have hword : wordLexeme? .cell c rest = (punctuation? c).map (·, 1) := by
    rcases hc with rfl | rfl | rfl <;> rfl
  rw [hkind] at hword
  have hcell : ¬ LexMode.cell = .read := by decide
  unfold lexeme?
  rw [hcomment, if_neg hcell, hword]
  rcases hc with rfl | rfl | rfl <;> rfl

/-! ## Numbers -/

/-- The characters of a number in a geometry: digits, and a sign before them. -/
structure IsInteger (cs : List Char) (minus : Bool) (ds : List Char) : Prop where
  eq : cs = (if minus then ['-'] else []) ++ ds
  nonempty : ds ≠ []
  allDigits : ∀ d ∈ ds, d.isDigit = true

variable {cs ds : List Char} {minus : Bool}

/-- An integer is printed as its sign and its digits. -/
theorem isInteger_toString (n : Int) :
    IsInteger (toString n).toList (n < 0) (Nat.toDigits 10 n.natAbs) where
  eq := by
    rw [toList_toString_int]
    simp only [decide_eq_true_eq]
  nonempty := toDigits_ne_nil _
  allDigits := isDigit_of_mem_toDigits

/-- Digits are counted up to the end of the number. -/
theorem digits_append (hds : ∀ d ∈ ds, d.isDigit = true) (hrest : EndsNumber rest) :
    digits (ds ++ rest) = ds.length :=
  run_append hds (hrest.not_of rfl rfl rfl)

/-- The characters that a number starts with. -/
def integerStarts : List Char := ['-', '0', '1', '2', '3', '4', '5', '6', '7', '8', '9']

/-- What none of these characters is. -/
theorem eq_false_of_integerStarts {c : Char} (hc : c ∈ integerStarts) (p : Char → Bool)
    (hp : integerStarts.all (!p ·) = true) : p c = false := by
  simpa using List.all_eq_true.mp hp c hc

/-- An integer may start with any digit. -/
theorem mem_integerStarts {c : Char} (h : c.isDigit = true) : c ∈ integerStarts := by
  obtain ⟨hge, hle⟩ := isDigit_iff.mp h
  have hmem : ∀ n : Nat, 48 ≤ n → n ≤ 57 → Char.ofNat n ∈ integerStarts := by
    intro n hge hle
    interval_cases n <;> decide
  rw [← Char.ofNat_toNat c]
  exact hmem _ hge hle

namespace IsInteger

variable (h : IsInteger cs minus ds)
include h

theorem ne_nil : cs ≠ [] := by
  rw [h.eq]
  simp [h.nonempty]

/-- An integer starts with a digit or its sign. -/
theorem head_mem {c : Char} {tail : List Char} (hcs : cs = c :: tail) : c ∈ integerStarts := by
  have heq := h.eq
  cases minus with
  | true =>
    rw [hcs, if_pos rfl] at heq
    rw [(List.cons.inj heq).1]
    decide
  | false =>
    rw [hcs, if_neg Bool.false_ne_true, List.nil_append] at heq
    exact mem_integerStarts (h.allDigits c (heq ▸ List.mem_cons_self ..))

/-- The sign of an integer is told from its start. -/
theorem sign_append (rest : List Char) : sign (cs ++ rest) = if minus then 1 else 0 := by
  rw [h.eq]
  cases minus with
  | true => rfl
  | false =>
    obtain ⟨d, tail, hds⟩ := List.exists_cons_of_ne_nil h.nonempty
    have hsign : isSign d = false := by
      have hdigit : d.isDigit = true := h.allDigits d (hds ▸ List.mem_cons_self ..)
      rw [Bool.eq_false_iff]
      intro hs
      simp only [isSign, Bool.or_eq_true, beq_iff_eq] at hs
      rcases hs with rfl | rfl <;> cases hdigit
    rw [hds]
    simp [sign, hsign]

/-- Behind its sign an integer has its digits. -/
theorem drop_sign (rest : List Char) : (cs ++ rest).drop (sign (cs ++ rest)) = ds ++ rest := by
  rw [h.sign_append rest, h.eq]
  cases minus <;> rfl

/-- An integer is as long as its sign and its digits. -/
theorem length_eq (rest : List Char) : cs.length = sign (cs ++ rest) + ds.length := by
  rw [h.sign_append rest, h.eq]
  cases minus with
  | true => exact Nat.add_comm ..
  | false => exact (Nat.zero_add _).symm

/-- An integer in front of the end of a number is one number. -/
theorem number?_append (hrest : EndsNumber rest) : number? (cs ++ rest) = some cs.length := by
  have hdigits : digits ((cs ++ rest).drop (sign (cs ++ rest))) = ds.length := by
    rw [h.drop_sign, digits_append h.allDigits hrest]
  have hpositive : ds.length ≠ 0 := by simpa using h.nonempty
  have hexponent : exponent rest = 0 := by
    unfold exponent
    cases rest with
    | nil => rfl
    | cons c rest =>
      rcases hrest c rfl with rfl | rfl | rfl <;> simp [sign, isSign]
  have hdrop : (cs ++ rest).drop cs.length = rest := List.drop_left
  unfold number?
  simp only [hdigits, ← h.length_eq rest, hdrop, beq_iff_eq, hpositive, if_false]
  cases rest with
  | nil => simp [hexponent]
  | cons c rest => rcases hrest c rfl with rfl | rfl | rfl <;> simp [hexponent, hdrop]

/-- An integer is no word. -/
theorem numberWord?_append (hrest : EndsNumber rest) : numberWord? (cs ++ rest) = none := by
  have hdigits : digits ((cs ++ rest).drop (sign (cs ++ rest))) = ds.length := by
    rw [h.drop_sign, digits_append h.allDigits hrest]
  have hpositive : ds.length ≠ 0 := by simpa using h.nonempty
  have hdrop : (cs ++ rest).drop cs.length = rest := List.drop_left
  unfold numberWord?
  simp only [hdigits, ← h.length_eq rest, hdrop, beq_iff_eq, hpositive, if_false]
  cases rest with
  | nil => rfl
  | cons c rest => rcases hrest c rfl with rfl | rfl | rfl <;> rfl

/-- An integer is no nuclide. -/
theorem nuclide?_append (hrest : EndsNumber rest) : nuclide? (cs ++ rest) = none := by
  cases minus with
  | true =>
    rw [h.eq]
    rfl
  | false =>
    obtain rfl : cs = ds := h.eq
    unfold nuclide?
    simp only [digits_append h.allDigits hrest, List.drop_left]
    cases rest with
    | nil => simp
    | cons c rest => rcases hrest c rfl with rfl | rfl | rfl <;> simp

/-- An integer is a number as long as the text does not go on with it. -/
theorem lexeme?_append (hrest : EndsNumber rest) {c : Char} {tail : List Char}
    (hcs : cs = c :: tail) : ∃ kind, kind.isNumber = true ∧
      lexeme? .cell margin c (tail ++ rest) = some (kind, cs.length) := by
  have hc := h.head_mem hcs
  have not_of := eq_false_of_integerStarts hc
  have hsource : c :: (tail ++ rest) = cs ++ rest := by rw [hcs, List.cons_append]
  have hlaw : thermalLaw? (cs ++ rest) = none := by
    rw [← hsource]
    simp [thermalLaw?, not_of Char.isAlpha (by decide)]
  have hnumber : numberLexeme (cs ++ rest) cs.length =
      (classifyNumber (String.ofList cs), cs.length) := by
    unfold numberLexeme
    rw [List.take_left, List.drop_left]
    cases rest with
    | nil => rfl
    | cons d rest => rcases hrest d rfl with rfl | rfl | rfl <;> rfl
  have hword : wordLexeme? .cell c (tail ++ rest) =
      some (classifyNumber (String.ofList cs), cs.length) := by
    unfold wordLexeme?
    simp only [hsource, h.nuclide?_append hrest, hlaw, h.numberWord?_append hrest,
      h.number?_append hrest, hnumber]
  refine ⟨classifyNumber (String.ofList cs), ?_, ?_⟩
  · unfold classifyNumber
    split
    · split_ifs <;> rfl
    · rfl
  · have hcomment : startsComment margin c (tail ++ rest) = false :=
      startsComment_eq_false (not_of (fun c ↦ c == 'c' || c == 'C') (by decide)) _
    unfold lexeme?
    rw [hcomment, hword, not_of (· == '#') (by decide), not_of (· == '$') (by decide),
      not_of isAsciiBlank (by decide)]
    rfl

end IsInteger

end

/-- Digits and signs take one byte each. -/
theorem byteSize_le {cs : List Char} (h : ∀ c ∈ cs, c ∈ integerStarts) :
    byteSize cs ≤ cs.length := by
  induction cs with
  | nil => exact le_rfl
  | cons c cs ih =>
    obtain ⟨hc, hcs⟩ := List.forall_mem_cons.mp h
    have hone : integerStarts.all (·.utf8Size == 1) = true := by decide
    have hsize : c.utf8Size = 1 := by simpa using List.all_eq_true.mp hone c hc
    have := ih hcs
    change c.utf8Size + byteSize cs ≤ cs.length + 1
    rw [hsize]
    omega

/-- A printed integer has digits and a sign only. -/
theorem mem_integerStarts_of_mem_toString {n : Int} {c : Char} (hc : c ∈ (toString n).toList) :
    c ∈ integerStarts := by
  rw [toList_toString_int, List.mem_append] at hc
  rcases hc with hc | hc
  · split_ifs at hc
    · rw [List.mem_singleton.mp hc]
      decide
    · cases hc
  · exact mem_integerStarts (isDigit_of_mem_toDigits c hc)

/-- A printed integer is not too long for a token. -/
theorem byteSize_toString_le {n : Int} (hn : Number.minInt ≤ n ∧ n ≤ Number.maxInt) :
    byteSize (toString n).toList ≤ Limits.tokenBytes := by
  have hlt : n.natAbs < 10 ^ 19 := by
    simp only [Number.minInt, Number.maxInt] at hn
    omega
  have hdigits := (Nat.length_toDigits_le_iff (by decide : 1 < 10) (by decide : 0 < 19)).mpr hlt
  refine (byteSize_le fun _ ↦ mem_integerStarts_of_mem_toString).trans ?_
  have hlimit : Limits.tokenBytes = 4096 := rfl
  rw [toList_toString_int, List.length_append, hlimit]
  split_ifs <;> simp <;> omega

/-! ## Texts -/

/-- In front of `rest` the text is lexed as tokens of which `Q` holds, unless there are too many. -/
def LexesAs (cs : List Char) (Q : List Token → Prop) (rest : List Char) : Prop :=
  ∀ margin p count,
    (∃ n, tokensFrom .cell margin p count (cs ++ rest) = .error (.tooManyTokens n)) ∨
    ∃ ts margin' p' count', Q ts ∧
      tokensFrom .cell margin p count (cs ++ rest) =
        (tokensFrom .cell margin' p' count' rest).map (ts ++ ·)

namespace LexesAs

variable {cs ds rest : List Char} {Q R : List Token → Prop}

theorem mono (h : LexesAs cs Q rest) (himp : ∀ ts, Q ts → R ts) : LexesAs cs R rest := by
  intro margin p count
  refine (h margin p count).imp_right ?_
  rintro ⟨ts, margin', p', count', hQ, heq⟩
  exact ⟨ts, margin', p', count', himp ts hQ, heq⟩

/-- Texts behind each other are cut into tokens behind each other. -/
theorem append {S : List Token → Prop} (h : LexesAs cs Q (ds ++ rest)) (h' : LexesAs ds R rest)
    (himp : ∀ ts us, Q ts → R us → S (ts ++ us)) : LexesAs (cs ++ ds) S rest := by
  intro margin p count
  rw [List.append_assoc]
  obtain hmany | ⟨ts, margin₁, p₁, count₁, hQ, heq⟩ := h margin p count
  · exact .inl hmany
  rw [heq]
  obtain ⟨n, hmany⟩ | ⟨us, margin₂, p₂, count₂, hR, heq'⟩ := h' margin₁ p₁ count₁
  · exact .inl ⟨n, by rw [hmany]; rfl⟩
  · refine .inr ⟨ts ++ us, margin₂, p₂, count₂, himp ts us hQ hR, ?_⟩
    rw [heq']
    cases tokensFrom .cell margin₂ p₂ count₂ rest with
    | ok vs => exact congrArg Except.ok (List.append_assoc ..).symm
    | error e => rfl

/-- One lexeme. -/
theorem single {c : Char} (hshort : byteSize (c :: cs) ≤ Limits.tokenBytes)
    (hlexeme : ∀ margin, ∃ kind, lexeme? .cell margin c (cs ++ rest) = some (kind, cs.length + 1) ∧
      ∀ span, Q [⟨kind, String.ofList (c :: cs), span⟩]) : LexesAs (c :: cs) Q rest := by
  intro margin p count
  obtain ⟨kind, hlex, hQ⟩ := hlexeme margin
  rw [List.cons_append, tokensFrom]
  split_ifs with hcount
  · exact .inl ⟨count, rfl⟩
  simp only [hlex, Nat.add_sub_cancel, List.take_left, List.drop_left]
  have hfits : ¬(decide (byteSize (c :: cs) > Limits.tokenBytes) && !kind.isLayout) = true := by
    simp [hshort]
  rw [if_neg hfits]
  let span := Span.ofText p (c :: cs)
  refine .inr ⟨_, marginAfter margin (c :: cs), span.stop, count + 1, hQ span, ?_⟩
  cases tokensFrom .cell (marginAfter margin (c :: cs)) span.stop (count + 1) rest <;> rfl

/-- A blank in front of something solid is one token. -/
theorem space (hrest : StartsSolid rest) :
    LexesAs [' '] (fun ts ↦ ∃ t, ts = [t] ∧ t.kind = .space) rest :=
  single (by decide) fun _ ↦ ⟨.space, lexeme?_space hrest, fun _ ↦ ⟨_, rfl, rfl⟩⟩

/-- The mark of a complement is one token. -/
theorem complement (rest : List Char) :
    LexesAs ['#'] (fun ts ↦ ∃ t, ts = [t] ∧ t.kind = .complement) rest :=
  single (by decide) fun _ ↦ ⟨.complement, lexeme?_complement rest, fun _ ↦ ⟨_, rfl, rfl⟩⟩

/-- A parenthesis or a colon is one token. -/
theorem mark {c : Char} {kind : TokenKind} (hc : c = '(' ∨ c = ')' ∨ c = ':')
    (hkind : punctuation? c = some kind) (rest : List Char) :
    LexesAs [c] (fun ts ↦ ∃ t, ts = [t] ∧ t.kind = kind) rest := by
  refine single ?_ fun _ ↦ ⟨kind, lexeme?_mark hc hkind rest, fun _ ↦ ⟨_, rfl, rfl⟩⟩
  rcases hc with rfl | rfl | rfl <;> decide

/-- A printed integer is one token, with its text. -/
theorem integer {n : Int} (hn : Number.minInt ≤ n ∧ n ≤ Number.maxInt) (hrest : EndsNumber rest) :
    LexesAs (toString n).toList
      (fun ts ↦ ∃ t, ts = [t] ∧ t.kind.isNumber = true ∧ t.text = toString n) rest := by
  have hinteger := isInteger_toString n
  have hshort := byteSize_toString_le hn
  obtain ⟨c, tail, hcs⟩ := List.exists_cons_of_ne_nil hinteger.ne_nil
  rw [hcs] at hshort ⊢
  refine single hshort fun margin ↦ ?_
  obtain ⟨kind, hkind, hlex⟩ : ∃ kind, kind.isNumber = true ∧
      lexeme? .cell margin c (tail ++ rest) = some (kind, (toString n).toList.length) :=
    hinteger.lexeme?_append hrest hcs
  rw [hcs, List.length_cons] at hlex
  refine ⟨kind, hlex, fun span ↦ ⟨_, rfl, hkind, ?_⟩⟩
  rw [← hcs, String.ofList_toList]

/-- A text is cut into such tokens, unless there are too many of them. -/
theorem tokenize (h : LexesAs cs Q []) :
    (∃ n, TransportDeck.tokenize .cell (String.ofList cs) = .error (.tooManyTokens n)) ∨
      ∃ ts, TransportDeck.tokenize .cell (String.ofList cs) = .ok ts ∧ Q ts := by
  rw [TransportDeck.tokenize, String.toList_ofList, ← List.append_nil cs]
  refine (h (some 0) .start 0).imp_right ?_
  rintro ⟨ts, margin, p, count, hQ, heq⟩
  refine ⟨ts, ?_, hQ⟩
  rw [heq, tokensFrom]
  exact congrArg Except.ok (List.append_nil ts)

end LexesAs

end TransportDeck.Lexer
