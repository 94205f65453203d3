import TransportDeck.Proofs.Number.IntegerText
import TransportDeck.Proofs.Token.Gaps
import TransportDeck.Proofs.Token.Names
import TransportDeck.Proofs.Token.Numerals

/-!
# Numbers and counts as tokens

An integer is one token, and so are the digits and the letter of a jump or a repeat, in front of
anything that ends a word.
-/

namespace TransportDeck.Lexer

open Text

variable {mode : LexMode} {margin : Option Nat} {c d : Char} {cs ds sgn rest : List Char}
  {kind : ShorthandKind}

/-! ## Digits -/

theorem eq_false_of_isDigit (hd : d.isDigit = true) (p : Char → Bool)
    (hp : "0123456789".toList.all (!p ·) = true) : p d = false := by
  have hmem : ∀ n : Nat, 48 ≤ n → n ≤ 57 → Char.ofNat n ∈ "0123456789".toList := by
    intro n hge hle
    interval_cases n <;> decide
  obtain ⟨hge, hle⟩ := isDigit_iff.mp hd
  have := hmem _ hge hle
  rw [Char.ofNat_toNat] at this
  simpa using List.all_eq_true.mp hp d this

theorem digits_eq_length (h : ∀ d ∈ ds, d.isDigit = true) : digits ds = ds.length := by
  have hrun := @run_append Char.isDigit ds [] h (by simp)
  rwa [List.append_nil] at hrun

theorem sign_of_isDigit (hd : d.isDigit = true) (cs : List Char) : sign (d :: cs) = 0 := by
  rw [sign, eq_false_of_isDigit hd isSign (by decide)]
  rfl

theorem thermalLaw?_of_not_isAlpha (hc : c.isAlpha = false) (cs : List Char) :
    thermalLaw? (c :: cs) = none := by
  simp [thermalLaw?, hc]

/-- What is lexed as a word, unless it starts with a mark, a blank or a comment. -/
theorem lexeme?_of_wordLexeme? {kind : TokenKind} {n : Nat} (hmode : mode ≠ .read)
    (hc : (c == '#' || c == '$' || c == 'c' || c == 'C' || isAsciiBlank c) = false)
    (h : wordLexeme? mode c cs = some (kind, n)) : lexeme? mode margin c cs = some (kind, n) := by
  simp only [Bool.or_eq_false_iff] at hc
  obtain ⟨⟨⟨⟨hmark, hdollar⟩, hsmall⟩, hlarge⟩, hblank⟩ := hc
  have hcomment : startsComment margin c cs = false :=
    startsComment_eq_false (by rw [hsmall, hlarge]; rfl) cs
  unfold lexeme?
  rw [hmark, hdollar, hcomment, hblank, if_neg hmode, h]
  rfl

/-! ## Integers -/

/-- An integer is a sign, which may be missing, and digits. -/
theorem exists_signed (h : Number.IsIntegerText cs) : ∃ sgn ds, cs = sgn ++ ds ∧
    (sgn = ['-'] ∨ sgn = ['+'] ∨ sgn = []) ∧ ds ≠ [] ∧ ∀ d ∈ ds, d.isDigit = true := by
  obtain ⟨sgn, heq, hsgn⟩ := Number.readSign_cases cs
  exact ⟨sgn, _, heq, by tauto, h.nonempty, h.allDigits⟩

theorem sign_signed (hsgn : sgn = ['-'] ∨ sgn = ['+'] ∨ sgn = []) (hne : ds ≠ [])
    (hds : ∀ d ∈ ds, d.isDigit = true) : sign (sgn ++ ds) = sgn.length := by
  obtain rfl | rfl | rfl := hsgn
  · rfl
  · rfl
  · obtain ⟨d, ds, rfl⟩ := List.exists_cons_of_ne_nil hne
    exact sign_of_isDigit (hds d List.mem_cons_self) ds

/-- What no first character of an integer is. -/
theorem eq_false_of_integer (h : Number.IsIntegerText (c :: cs)) (p : Char → Bool)
    (hp : "+-0123456789".toList.all (!p ·) = true) : p c = false := by
  obtain ⟨sgn, ds, heq, hsgn, hne, hds⟩ := exists_signed h
  have hmark {d : Char} (hd : d = '-' ∨ d = '+') : p d = false := by
    simpa using List.all_eq_true.mp hp d (by rcases hd with rfl | rfl <;> decide)
  obtain rfl | rfl | rfl := hsgn
  · exact hmark (.inl (List.cons.inj heq).1)
  · exact hmark (.inr (List.cons.inj heq).1)
  · rw [List.nil_append] at heq
    subst heq
    refine eq_false_of_isDigit (hds c List.mem_cons_self) p (List.all_eq_true.mpr fun d hd ↦ ?_)
    exact List.all_eq_true.mp hp d (List.mem_cons_of_mem _ (List.mem_cons_of_mem _ hd))

theorem wordLexeme?_integer (h : Number.IsIntegerText (c :: cs)) :
    wordLexeme? mode c cs = some (classifyNumber (String.ofList (c :: cs)), (c :: cs).length) := by
  have hlaw : thermalLaw? (c :: cs) = none :=
    thermalLaw?_of_not_isAlpha (eq_false_of_integer h Char.isAlpha (by decide)) cs
  obtain ⟨sgn, ds, heq, hsgn, hne, hds⟩ := exists_signed h
  have hsign : sign (c :: cs) = sgn.length := heq ▸ sign_signed hsgn hne hds
  have hdigits : digits ((c :: cs).drop sgn.length) = ds.length := by
    rw [heq, List.drop_left, digits_eq_length hds]
  have hpositive : (ds.length == 0) = false := by simpa using hne
  have hlength : sgn.length + ds.length = (c :: cs).length := by rw [heq, List.length_append]
  have hdrop : (c :: cs).drop (c :: cs).length = [] := List.drop_length
  have hnuclide : nuclide? (c :: cs) = none := by
    unfold nuclide?
    obtain rfl | rfl | rfl := hsgn
    · rw [heq]; rfl
    · rw [heq]; rfl
    · rw [List.nil_append] at heq
      simp only [heq, digits_eq_length hds, List.drop_length]
      split_ifs <;> rfl
  have hword : numberWord? (c :: cs) = none := by
    simp only [numberWord?, hsign, hdigits, hpositive, hlength, hdrop, Bool.false_eq_true, if_false]
  have hnumber : number? (c :: cs) = some (c :: cs).length := by
    simp only [number?, hsign, hdigits, hpositive, hlength, hdrop, Bool.false_eq_true,
      if_false, Option.map_some]
    rfl
  have hlexeme : numberLexeme (c :: cs) (c :: cs).length =
      (classifyNumber (String.ofList (c :: cs)), (c :: cs).length) := by
    simp only [numberLexeme, hdrop, List.take_length]
  simp only [wordLexeme?, hnuclide, hlaw, hword, hnumber, hlexeme]

/-- An integer is one token in front of the end of a word. -/
theorem lexeme?_integer (hmode : mode ≠ .read) (h : Number.IsIntegerText (c :: cs))
    (hrest : Closes rest) :
    lexeme? mode margin c (cs ++ rest) =
      some (classifyNumber (String.ofList (c :: cs)), (c :: cs).length) := by
  refine lexeme?_of_wordLexeme? hmode (eq_false_of_integer h
    (fun c ↦ c == '#' || c == '$' || c == 'c' || c == 'C' || isAsciiBlank c) (by decide)) ?_
  rw [wordLexeme?_of_closes hrest]
  exact wordLexeme?_integer h

/-! ## Counts -/

theorem lower_digits (h : ∀ d ∈ ds, d.isDigit = true) : lower ds = ds := by
  refine (List.map_congr_left fun d hd ↦ ?_).trans (List.map_id ds)
  rcases toLower_cases d with hlower | ⟨-, hge, -⟩
  · exact hlower
  · have := isDigit_iff.mp (h d hd)
    omega

/-- The letters of jumps and repeats, in both cases. -/
def countLetters : List Char := ['j', 'J', 'r', 'R']

theorem mem_countLetters (hc : c.toLower = countedLetter kind) : c ∈ countLetters := by
  have hletter : countedLetter kind = 'j' ∨ countedLetter kind = 'r' := by
    cases kind <;> simp [countedLetter]
  have halpha : c.isAlpha = true := by
    rw [← isAlpha_toLower, hc]
    rcases hletter with h | h <;> rw [h] <;> rfl
  have hall : alphabet.all (fun c ↦
      countLetters.contains c || !(c.toLower == 'j' || c.toLower == 'r')) = true := by
    decide
  have := List.all_eq_true.mp hall c (mem_alphabet halpha)
  rw [hc] at this
  rcases hletter with h | h <;> simpa [h] using this

/-- What none of these letters is. -/
theorem eq_false_of_countLetter (hc : c.toLower = countedLetter kind) (p : Char → Bool)
    (hp : countLetters.all (!p ·) = true) : p c = false := by
  simpa using List.all_eq_true.mp hp c (mem_countLetters hc)

theorem classify?_counted (hkind : kind = .jump ∨ kind = .copies) (hds : ∀ d ∈ ds, d.isDigit = true)
    (hc : c.toLower = countedLetter kind) :
    ShorthandKind.classify? (String.ofList (ds ++ [c])) = some kind := by
  have hlower : lower (ds ++ [c]) = ds ++ [countedLetter kind] := by
    have hdigits := lower_digits hds
    rw [lower] at hdigits ⊢
    rw [List.map_append, hdigits, List.map_singleton, hc]
  have hcounted (letters : String) (e : Char) (hletters : letters.toList = [e]) :
      ShorthandKind.counted letters (ds ++ [e]) = true := by
    have hsuffix : [e] <:+ ds ++ [e] := List.suffix_append _ _
    simp only [ShorthandKind.counted, dropEnding?, hletters, List.isSuffixOf_iff_suffix.mpr hsuffix,
      if_true, List.length_append, Nat.add_sub_cancel, List.take_left, List.all_eq_true]
    exact hds
  have hnot : ShorthandKind.counted "j" (ds ++ ['r']) = false := by
    have hsuffix : ¬['j'] <:+ ds ++ ['r'] := fun h ↦ by
      have := List.IsSuffix.getLast h (by simp)
      simp at this
    have hletters : "j".toList = ['j'] := rfl
    simp [ShorthandKind.counted, dropEnding?, hletters, List.isSuffixOf_iff_suffix, hsuffix]
  unfold ShorthandKind.classify?
  rw [String.toList_ofList, hlower]
  obtain rfl | rfl := hkind
  · simp only [countedLetter, hcounted "j" 'j' rfl, if_true]
  · simp only [countedLetter, hnot, hcounted "r" 'r' rfl, Bool.false_eq_true, if_false, if_true]

theorem wordLexeme?_counted (hkind : kind = .jump ∨ kind = .copies)
    (hds : ∀ d ∈ ds, d.isDigit = true) (hd : d.toLower = countedLetter kind)
    (heq : ds ++ [d] = c :: cs) :
    wordLexeme? mode c cs = some (.shorthand kind, (c :: cs).length) := by
  have hclassify := classify?_counted hkind hds hd
  cases ds with
  | nil =>
    obtain ⟨rfl, rfl⟩ : d = c ∧ [] = cs := by simpa using heq
    have hword : wordLexeme? mode d [] = some (classifyWord mode (String.ofList [d]), 1) := by
      have hmem := mem_countLetters hd
      fin_cases hmem <;> rfl
    rw [List.nil_append] at hclassify
    rw [hword]
    unfold classifyWord
    rw [hclassify]
    rfl
  | cons e ds =>
    obtain ⟨rfl, hcs⟩ := List.cons.inj heq
    change ds ++ [d] = cs at hcs
    subst hcs
    have he : e.isDigit = true := hds e List.mem_cons_self
    have hpoint : d ≠ '.' := by simpa using eq_false_of_countLetter hd (· == '.') (by decide)
    have hexponent : (d == 'e' || d == 'E') = false :=
      eq_false_of_countLetter hd (fun d ↦ d == 'e' || d == 'E') (by decide)
    have halpha : d.isAlpha = true := by
      simpa using eq_false_of_countLetter hd (fun d ↦ !d.isAlpha) (by decide)
    have hdigits : digits (e :: (ds ++ [d])) = (e :: ds).length := by
      rw [← List.cons_append]
      exact run_append hds (by
        rintro _ ⟨⟩
        exact eq_false_of_countLetter hd Char.isDigit (by decide))
    have hdrop : (e :: (ds ++ [d])).drop (e :: ds).length = [d] := by
      rw [← List.cons_append, List.drop_left]
    have hletters : letters [d] = 1 := by simp [letters, run, halpha]
    have hnuclide : nuclide? (e :: (ds ++ [d])) = none := by
      simp only [nuclide?, hdigits, hdrop]
      split_ifs <;> simp [hpoint]
    have hlaw : thermalLaw? (e :: (ds ++ [d])) = none :=
      thermalLaw?_of_not_isAlpha (eq_false_of_isDigit he Char.isAlpha (by decide)) _
    have hword : numberWord? (e :: (ds ++ [d])) = some (e :: (ds ++ [d])).length := by
      simp only [numberWord?, sign_of_isDigit he, List.drop_zero, hdigits, Nat.zero_add, hdrop,
        hexponent, halpha, hletters]
      simp
    simp only [wordLexeme?, hnuclide, hlaw, hword, List.take_length]
    rw [← List.cons_append, classifyNumberWord, hclassify]

/-- Digits and the letter are one token in front of the end of a word. -/
theorem lexeme?_counted (hmode : mode ≠ .read) (hkind : kind = .jump ∨ kind = .copies)
    (hds : ∀ d ∈ ds, d.isDigit = true) (hd : d.toLower = countedLetter kind)
    (heq : ds ++ [d] = c :: cs) (hrest : Closes rest) :
    lexeme? mode margin c (cs ++ rest) = some (.shorthand kind, (c :: cs).length) := by
  refine lexeme?_of_wordLexeme? hmode ?_ ?_
  · cases ds with
    | nil =>
      obtain rfl : d = c := (List.cons.inj heq).1
      exact eq_false_of_countLetter hd (fun c ↦
        c == '#' || c == '$' || c == 'c' || c == 'C' || isAsciiBlank c) (by decide)
    | cons e ds =>
      obtain rfl : e = c := (List.cons.inj heq).1
      exact eq_false_of_isDigit (hds e List.mem_cons_self)
        (fun c ↦ c == '#' || c == '$' || c == 'c' || c == 'C' || isAsciiBlank c) (by decide)
  · rw [wordLexeme?_of_closes hrest]
    exact wordLexeme?_counted hkind hds hd heq

/-! ## Words that would touch -/

theorem classifyWord_eq {text : String} {kind : ShorthandKind}
    (h : classifyWord mode text = .shorthand kind) : ShorthandKind.classify? text = some kind := by
  unfold classifyWord at h
  split at h
  · next hclassify => rw [hclassify, TokenKind.shorthand.inj h]
  · split_ifs at h
    split at h
    · split_ifs at h
    · split_ifs at h
    · cases h

theorem isNumber_classifyWord (mode : LexMode) (text : String) :
    (classifyWord mode text).isNumber = false := by
  unfold classifyWord
  split
  · rfl
  · split_ifs
    · rfl
    · rfl
    · split
      · split_ifs <;> rfl
      · split_ifs <;> rfl
      · rfl

theorem not_isNumber_symbolLexeme? {kind : TokenKind} {n : Nat}
    (h : symbolLexeme? mode c cs = some (kind, n)) :
    kind.isNumber = false ∧ kind.isShorthand = false := by
  unfold symbolLexeme? at h
  split_ifs at h
  · obtain ⟨rfl, -⟩ := Prod.mk.inj (Option.some.inj h)
    exact ⟨rfl, rfl⟩
  · obtain ⟨kind, hkind, heq⟩ := Option.map_eq_some_iff.mp h
    obtain ⟨rfl, -⟩ := Prod.mk.inj heq
    unfold punctuation? at hkind
    split at hkind <;> cases hkind <;> exact ⟨rfl, rfl⟩

/-- How the lexemes of numbers and shorthands are found. -/
theorem wordLexeme?_cases {kind : TokenKind} {n : Nat}
    (h : wordLexeme? mode c cs = some (kind, n)) :
    kind.isNumber = false ∧ kind.isShorthand = false ∨
      kind = classifyNumberWord (String.ofList ((c :: cs).take n)) ∨
      (∃ m, number? (c :: cs) = some m ∧ numberWord? (c :: cs) = none ∧ numberLexeme (c :: cs) m =
      (kind, n)) ∨ kind = classifyWord mode (String.ofList ((c :: cs).take n)) := by
  unfold wordLexeme? at h
  dsimp only at h
  split at h
  · obtain ⟨rfl, -⟩ := Prod.mk.inj (Option.some.inj h)
    exact .inl ⟨rfl, rfl⟩
  split at h
  · obtain ⟨rfl, -⟩ := Prod.mk.inj (Option.some.inj h)
    exact .inl ⟨rfl, rfl⟩
  split at h
  · obtain ⟨rfl, rfl⟩ := Prod.mk.inj (Option.some.inj h)
    exact .inr (.inl rfl)
  next hword =>
  split at h
  · next m hm => exact .inr (.inr (.inl ⟨m, hm, hword, Option.some.inj h⟩))
  split_ifs at h
  · obtain ⟨rfl, rfl⟩ := Prod.mk.inj (Option.some.inj h)
    exact .inr (.inr (.inr rfl))
  · exact .inl (not_isNumber_symbolLexeme? h)

theorem wordLexeme?_of_lexeme? {kind : TokenKind} {n : Nat} (hmode : mode ≠ .read)
    (h : lexeme? mode margin c cs = some (kind, n))
    (hkind : kind.isNumber = true ∨ kind.isShorthand = true) :
    wordLexeme? mode c cs = some (kind, n) := by
  have hother {k : TokenKind} {m : Nat} (heq : some (k, m) = some (kind, n))
    (hnumber : k.isNumber = false)
      (hshorthand : k.isShorthand = false) : wordLexeme? mode c cs = some (kind, n) := by
    obtain ⟨rfl, -⟩ := Prod.mk.inj (Option.some.inj heq)
    simp [hnumber, hshorthand] at hkind
  unfold lexeme? at h
  split_ifs at h
  · exact hother h rfl rfl
  · exact hother h rfl rfl
  · exact hother h rfl rfl
  · exact hother h rfl rfl
  · exact h

/-- A lexeme of a number is scanned as one, and no letters follow it. -/
theorem number?_of_lexeme? {kind : TokenKind} {n : Nat} (hmode : mode ≠ .read)
    (h : lexeme? mode margin c cs = some (kind, n)) (hkind : kind.isNumber = true) :
    number? (c :: cs) = some n ∧ numberWord? (c :: cs) = none := by
  have hword := wordLexeme?_of_lexeme? hmode h (.inl hkind)
  rcases wordLexeme?_cases hword with ⟨hnumber, -⟩ | rfl | ⟨m, hm, hnone, hlexeme⟩ | rfl
  · rw [hkind] at hnumber
    cases hnumber
  · unfold classifyNumberWord at hkind
    split at hkind <;> cases hkind
  · unfold numberLexeme at hlexeme
    dsimp only at hlexeme
    split at hlexeme
    · split_ifs at hlexeme
      · obtain ⟨rfl, -⟩ := Prod.mk.inj hlexeme
        cases hkind
      · obtain ⟨-, rfl⟩ := Prod.mk.inj hlexeme
        exact ⟨hm, hnone⟩
    · obtain ⟨-, rfl⟩ := Prod.mk.inj hlexeme
      exact ⟨hm, hnone⟩
  · rw [isNumber_classifyWord] at hkind
    cases hkind

/-- A lexeme of a shorthand is one by its text, unless it is a factor. -/
theorem classify?_of_lexeme? {n : Nat} (hmode : mode ≠ .read)
    (h : lexeme? mode margin c cs = some (.shorthand kind, n)) (hkind : kind ≠ .multiply) :
    ShorthandKind.classify? (String.ofList ((c :: cs).take n)) = some kind := by
  have hword := wordLexeme?_of_lexeme? hmode h (.inr rfl)
  rcases wordLexeme?_cases hword with ⟨-, hshorthand⟩ | heq | ⟨m, -, -, hlexeme⟩ | heq
  · cases hshorthand
  · unfold classifyNumberWord at heq
    split at heq
    · next hclassify => rw [hclassify, TokenKind.shorthand.inj heq]
    · cases heq
  · have hplain : classifyNumber (String.ofList ((c :: cs).take m)) ≠ .shorthand kind := by
      rcases classifyNumber_cases (String.ofList ((c :: cs).take m)) with hcase | hcase <;>
        rw [hcase] <;> nofun
    unfold numberLexeme at hlexeme
    dsimp only at hlexeme
    split at hlexeme
    · split_ifs at hlexeme
      · exact absurd (TokenKind.shorthand.inj (Prod.mk.inj hlexeme).1).symm hkind
      · exact absurd (Prod.mk.inj hlexeme).1 hplain
    · exact absurd (Prod.mk.inj hlexeme).1 hplain
  · exact classifyWord_eq heq.symm

theorem exponent_pos {e : Char} (hd : isSign d = true) (he : e.isDigit = true) (cs : List Char) :
    0 < exponent (d :: e :: cs) := by
  have hdigits : 0 < digits (e :: cs) := by
    rw [digits, run, List.takeWhile_cons_of_pos he]
    exact Nat.succ_pos _
  have hpower : exponent (d :: e :: cs) = if 0 < digits (e :: cs) then 1 + digits (e :: cs)
      else 0 := by
    have hsigns : d = '+' ∨ d = '-' := by simpa [isSign] using hd
    rcases hsigns with rfl | rfl <;> simp [exponent, sign, isSign]
  rw [hpower, if_pos hdigits]
  omega

/-- Behind an integer stands no digit, no letter of a count, and no sign with a digit behind it. -/
theorem head_behind_integer {kind : TokenKind} (hmode : mode ≠ .read)
    (h : lexeme? mode margin c (cs ++ rest) = some (kind, (c :: cs).length))
    (hkind : kind.isNumber = true) (hinteger : Number.IsIntegerText (c :: cs))
    (hd : d ∈ rest.head?) :
    d.isDigit = false ∧ d ∉ countLetters ∧
      (isSign d = true → ∀ e ∈ rest.tail.head?, e.isDigit = false) := by
  obtain ⟨hnumber, hword⟩ := number?_of_lexeme? hmode h hkind
  obtain ⟨sgn, ds, heq, hsgn, hne, hds⟩ := exists_signed hinteger
  obtain ⟨rest, rfl⟩ := List.head?_eq_some_iff.mp hd
  have hlength : (c :: cs).length = sgn.length + ds.length := by rw [heq, List.length_append]
  have hsource : c :: (cs ++ d :: rest) = sgn ++ (ds ++ d :: rest) := by
    rw [← List.cons_append, heq, List.append_assoc]
  have hsign : sign (sgn ++ (ds ++ d :: rest)) = sgn.length := by
    obtain rfl | rfl | rfl := hsgn
    · rfl
    · rfl
    · obtain ⟨e, ds, rfl⟩ := List.exists_cons_of_ne_nil hne
      exact sign_of_isDigit (hds e List.mem_cons_self) _
  rw [hlength, hsource] at hnumber
  rw [hsource] at hword
  simp only [number?, numberWord?, hsign, List.drop_left] at hnumber hword
  obtain ⟨k, hk, hsum⟩ := Option.map_eq_some_iff.mp hnumber
  have hle : sgn.length + digits (ds ++ d :: rest) ≤ k := by
    split at hk
    · split_ifs at hk
      have := Option.some.inj hk
      omega
    · split_ifs at hk
      exact (Option.some.inj hk).le
  have hdigit : d.isDigit = false := by
    by_contra hdigit
    have hlonger : ds.length < digits (ds ++ d :: rest) := by
      rw [digits, run, List.takeWhile_append_of_pos hds,
        List.takeWhile_cons_of_pos (by simpa using hdigit)]
      simp
    omega
  have hdigits : digits (ds ++ d :: rest) = ds.length :=
    run_append hds (by rintro _ ⟨⟩; exact hdigit)
  have hdrop : (sgn ++ (ds ++ d :: rest)).drop (sgn.length + ds.length) = d :: rest := by
    rw [← List.append_assoc, ← List.length_append, List.drop_left]
  have hpositive : (ds.length == 0) = false := by simpa using hne
  rw [hdigits] at hle hword
  obtain rfl : k = sgn.length + ds.length := by omega
  rw [hdrop] at hsum hword
  refine ⟨hdigit, fun hmem ↦ ?_, fun hmark e he ↦ ?_⟩
  · simp only [hpositive, Bool.false_eq_true, if_false] at hword
    have hletter : (d == 'e' || d == 'E') = false ∧ d.isAlpha = true := by
      fin_cases hmem <;> decide
    rw [hletter.1, hletter.2] at hword
    cases hword
  · obtain ⟨rest, rfl⟩ := List.head?_eq_some_iff.mp he
    by_contra hdigit'
    have hexponent := exponent_pos hmark (by simpa using hdigit') rest
    omega

/-- An integer is not touched by another one or by a count behind it. -/
theorem not_touched {kind : TokenKind} {w : List Char} (hmode : mode ≠ .read)
    (h : lexeme? mode margin c (cs ++ (w ++ rest)) = some (kind, (c :: cs).length))
    (hkind : kind.isNumber = true) (hinteger : Number.IsIntegerText (c :: cs)) :
    ¬Number.IsIntegerText w ∧
      ¬∃ kind ds d, w = ds ++ [d] ∧
      (∀ e ∈ ds, e.isDigit = true) ∧ d.toLower = countedLetter kind := by
  have hhead {d : Char} (hd : d ∈ (w ++ rest).head?) :=
    head_behind_integer hmode h hkind hinteger hd
  constructor
  · intro hw
    obtain ⟨sgn, ds, rfl, hsgn, hne, hds⟩ := exists_signed hw
    obtain ⟨d, ds, rfl⟩ := List.exists_cons_of_ne_nil hne
    have hd := hds d List.mem_cons_self
    obtain rfl | rfl | rfl := hsgn
    · exact absurd hd (by simp [(hhead (d := '-') rfl).2.2 rfl d rfl])
    · exact absurd hd (by simp [(hhead (d := '+') rfl).2.2 rfl d rfl])
    · exact absurd hd (by simp [(hhead (d := d) rfl).1])
  · rintro ⟨kind, ds, d, rfl, hds, hd⟩
    cases ds with
    | nil => exact (hhead (d := d) rfl).2.1 (mem_countLetters hd)
    | cons e ds => exact absurd (hds e List.mem_cons_self) (by simp [(hhead (d := e) rfl).1])

end TransportDeck.Lexer
