import TransportDeck.Proofs.Node.Bare
import TransportDeck.Proofs.Number.Numerals
import TransportDeck.Proofs.Token.Boundaries

/-!
# Numbers and their numerals

What the lexer takes for a number is a numeral, and so is the factor in front of the letter of a
multiplication. So the reading of numerals settles which of them are read and which are zero.
-/

namespace TransportDeck

open Text

namespace Lexer

open Number

variable {cs : List Char} {n : Nat}

/-! ## Scanners -/

theorem isDigit_of_mem_take (cs : List Char) : ∀ d ∈ cs.take (digits cs), d.isDigit = true := by
  rw [digits, take_run]
  exact fun _ ↦ List.mem_takeWhile_imp

theorem take_digits_ne_nil (h : digits cs ≠ 0) : cs.take (digits cs) ≠ [] := by
  rw [digits, take_run]
  exact List.ne_nil_of_length_pos (Nat.pos_of_ne_zero h)

theorem isOptionalSign_take (cs : List Char) : IsOptionalSign (cs.take (sign cs)) := by
  cases cs with
  | nil => exact .inl rfl
  | cons c cs =>
    rw [sign]
    split_ifs with hc
    · exact .inr ⟨c, hc, rfl⟩
    · exact .inl rfl

theorem isPower_take (cs : List Char) :
    cs.take (exponent cs) = [] ∨ IsPower (cs.take (exponent cs)) := by
  unfold exponent
  extract_lets l s n
  split_ifs with hpower
  swap
  · exact .inl rfl
  right
  simp only [Bool.and_eq_true, decide_eq_true_eq] at hpower
  obtain ⟨hlead, hn⟩ := hpower
  have hletter : l = 0 ∨ ∃ c, isPowerLetter c = true ∧ cs.take l = [c] := by
    cases cs with
    | nil => exact .inl rfl
    | cons c cs =>
      by_cases hc : (c == 'e' || c == 'E') = true
      · exact .inr ⟨c, hc, by simp only [l, if_pos hc, List.take_succ_cons, List.take_zero]⟩
      · exact .inl (if_neg hc)
  have hsign : IsOptionalSign ((cs.drop l).take s) := isOptionalSign_take (cs.drop l)
  have hdigits : ∀ d ∈ (cs.drop (l + s)).take n, d.isDigit = true :=
    isDigit_of_mem_take (cs.drop (l + s))
  have hne : (cs.drop (l + s)).take n ≠ [] := take_digits_ne_nil hn.ne'
  clear_value l s n
  rw [List.take_add, List.take_add, List.append_assoc]
  obtain rfl | ⟨c, hc, hl⟩ := hletter
  · rw [Nat.zero_add] at hdigits hne ⊢
    obtain hnone | ⟨c, hc, hs⟩ := hsign
    · -- there is no sign although the text has room for one
      exfalso
      obtain rfl | hnil := List.take_eq_nil_iff.mp hnone
      · exact absurd hlead (by decide)
      · have hcs : cs = [] := hnil
        rw [hcs, List.drop_nil, List.take_nil] at hne
        exact hne rfl
    · rw [List.drop_zero] at hs
      rw [List.take_zero, List.nil_append, List.drop_zero, hs]
      exact .elided hc hne hdigits
  · rw [hl, List.singleton_append]
    exact .letter hc hsign hne hdigits

/-- What is scanned as a number is a numeral. -/
theorem isNumeral_of_number? (h : number? cs = some n) : IsNumeral (cs.take n) := by
  unfold number? at h
  extract_lets s ds mantissa at h
  obtain ⟨k, hk, rfl⟩ := Option.map_eq_some_iff.mp h
  rw [List.take_add]
  suffices hmantissa : ∃ m, cs.take k = cs.take s ++ m ∧ IsMantissa m by
    obtain ⟨m, hm, hmantissa⟩ := hmantissa
    rw [hm, List.append_assoc]
    exact .mk (isOptionalSign_take cs) hmantissa (isPower_take _)
  have hdigits : ∀ d ∈ (cs.drop s).take ds, d.isDigit = true := isDigit_of_mem_take (cs.drop s)
  have hnonempty : ds ≠ 0 → (cs.drop s).take ds ≠ [] := take_digits_ne_nil
  unfold mantissa at hk
  split at hk
  · next rest hrest =>
    dsimp only at hk
    split_ifs at hk with hempty
    obtain rfl := Option.some.inj hk
    refine ⟨(cs.drop s).take ds ++ '.' :: rest.take (digits rest), ?_,
      .decimal ?_ hdigits (isDigit_of_mem_take rest)⟩
    · rw [Nat.add_assoc, List.take_add, hrest, Nat.add_comm 1, List.take_succ_cons, List.take_add,
        List.append_assoc]
    · simp only [Bool.and_eq_true, beq_iff_eq, not_and_or] at hempty
      rcases hempty with hempty | hempty
      · exact List.append_ne_nil_of_left_ne_nil (hnonempty hempty) _
      · exact List.append_ne_nil_of_right_ne_nil _ (take_digits_ne_nil hempty)
  · split_ifs at hk with hempty
    obtain rfl := Option.some.inj hk
    rw [beq_iff_eq] at hempty
    exact ⟨(cs.drop s).take ds, List.take_add, .integer (hnonempty hempty) hdigits⟩

/-! ## Factors -/

/-- The factor of a multiplication is read. -/
theorem isSome_factor {text : String} (h : ShorthandKind.classify? text = some .multiply) :
    ∃ factor c, text.toList = factor ++ [c] ∧ (readReal? (String.ofList factor)).isSome = true := by
  unfold ShorthandKind.classify? at h
  dsimp only at h
  split_ifs at h <;> try cases h
  split at h
  swap
  · cases h
  next factor hfactor =>
  unfold dropEnding? at hfactor
  split_ifs at hfactor with hsuffix
  obtain ⟨us, hus⟩ := List.isSuffixOf_iff_suffix.mp hsuffix
  obtain ⟨ds, cs, htext, hds, hcs⟩ := List.map_eq_append_iff.mp hus.symm
  obtain ⟨c, rfl, -⟩ := List.map_eq_singleton_iff.mp hcs
  obtain rfl := Option.some.inj hfactor
  refine ⟨ds, c, htext, ?_⟩
  rw [← hus, List.length_append, Nat.add_sub_cancel, List.take_left' rfl, ← hds] at h
  rw [← readReal?_lowerString, lowerString, String.toList_ofList]
  split_ifs at h with hsome
  exact hsome

theorem forall_isRealChar {text : String} (h : (readReal? text).isSome = true) :
    text.toList.any Char.isDigit = true ∧ ∀ c ∈ text.toList, isRealChar c = true := by
  unfold readReal? at h
  dsimp only at h
  split_ifs at h with hchars
  · rw [Bool.and_eq_true] at hchars
    exact ⟨hchars.1, List.all_eq_true.mp hchars.2⟩
  · cases h

/-- Behind the digits of a factor stands nothing but the letter of the multiplication. -/
theorem isNumeral_of_numberWord? (h : numberWord? cs = some n)
    (hmultiply : ShorthandKind.classify? (String.ofList (cs.take n)) = some .multiply) :
    IsNumeral (cs.take n).dropLast := by
  obtain ⟨factor, m, hfactor, hsome⟩ := isSome_factor hmultiply
  obtain ⟨-, hreal⟩ := forall_isRealChar hsome
  rw [String.toList_ofList] at hfactor hreal
  unfold numberWord? at h
  extract_lets s ds at h
  split_ifs at h with hempty
  split at h
  swap
  · cases h
  next c rest hrest =>
  split_ifs at h with he halpha
  obtain rfl := Option.some.inj h
  have hsplit : cs.take (s + ds + letters (c :: rest)) =
      cs.take s ++ ((cs.drop s).take ds ++ c :: rest.takeWhile Char.isAlpha) := by
    rw [List.take_add, List.take_add, hrest, letters, take_run, List.takeWhile_cons_of_pos halpha,
      List.append_assoc]
  have hnotreal : isRealChar c = false := by
    have hletters :=
      eq_false_of_isAlpha halpha (fun c ↦ isRealChar c && !(c == 'e' || c == 'E')) (by decide)
    rwa [Bool.eq_false_iff.mpr he, Bool.not_false, Bool.and_true] at hletters
  rw [hsplit] at hfactor ⊢
  obtain htail | ⟨tail, d, htail⟩ := List.eq_nil_or_concat' (rest.takeWhile Char.isAlpha)
  · have hnumeral : IsNumeral (cs.take s ++ ((cs.drop s).take ds ++ [])) :=
      .mk (isOptionalSign_take cs)
        (.integer (take_digits_ne_nil (by simpa using hempty)) (isDigit_of_mem_take _)) (.inl rfl)
    rw [htail, ← List.append_assoc, List.dropLast_concat]
    rwa [List.append_nil] at hnumeral
  · -- the factor would go on with a letter
    have hmem : c ∈ factor := by
      have hlast : cs.take s ++ ((cs.drop s).take ds ++ c :: tail) ++ [d] = factor ++ [m] := by
        rw [← hfactor, htail]
        simp
      rw [← (List.append_inj' hlast rfl).1]
      simp
    rw [hreal c hmem] at hnotreal
    cases hnotreal

/-- There are no digits in a word. -/
theorem not_multiply_of_word (h : ShorthandKind.classify? (String.ofList (cs.take (word cs))) =
    some .multiply) :
    False := by
  obtain ⟨factor, m, hfactor, hsome⟩ := isSome_factor h
  obtain ⟨hany, -⟩ := forall_isRealChar hsome
  rw [String.toList_ofList] at hfactor hany
  obtain ⟨d, hd, hdigit⟩ := List.any_eq_true.mp hany
  have hmem : d ∈ cs.take (word cs) := by
    rw [hfactor]
    exact List.mem_append_left _ hd
  have hword : ∀ d ∈ cs.take (word cs), (d.isAlpha || d == '.' || d == '/') = true := by
    unfold word
    dsimp only
    split_ifs
    · simp
    · rw [List.take_add, List.forall_mem_append, letters, take_run, take_run]
      constructor
      · intro d hd
        rw [List.mem_takeWhile_imp hd]
        rfl
      · intro d hd
        exact List.mem_takeWhile_imp (p := fun d : Char ↦ d.isAlpha || d == '.' || d == '/') hd
  have := eq_false_of_integerStarts (mem_integerStarts hdigit)
    (fun d ↦ d.isAlpha || d == '.' || d == '/') (by decide)
  rw [hword d hmem] at this
  cases this

/-! ## Lexemes -/

/-- A number is a numeral, and zero if its value is; the factor of a multiplication is a numeral. -/
structure ShowsNumeral (kind : TokenKind) (cs : List Char) : Prop where
  number : kind.isNumber = true → IsNumeral cs ∧ kind = classifyNumber (String.ofList cs)
  factor : kind = .shorthand .multiply → IsNumeral cs.dropLast

theorem ShowsNumeral.of_other {kind : TokenKind} (hnumber : kind.isNumber = false)
    (hfactor : kind ≠ .shorthand .multiply) : ShowsNumeral kind cs where
  number h := absurd h (by simp [hnumber])
  factor h := absurd h hfactor

theorem ShowsNumeral.of_shorthand {kind : ShorthandKind}
    (h : kind = .multiply → IsNumeral cs.dropLast) : ShowsNumeral (.shorthand kind) cs where
  number := nofun
  factor heq := h (TokenKind.shorthand.inj heq)

theorem classifyNumber_cases (text : String) :
    classifyNumber text = .number ∨ classifyNumber text = .zero := by
  unfold classifyNumber
  split
  · split_ifs
    · exact .inr rfl
    · exact .inl rfl
  · exact .inl rfl

theorem showsNumeral_numberLexeme (h : number? cs = some n) :
    ShowsNumeral (numberLexeme cs n).1 (cs.take (numberLexeme cs n).2) := by
  have hnumeral := isNumeral_of_number? h
  have hplain : ShowsNumeral (classifyNumber (String.ofList (cs.take n))) (cs.take n) := by
    refine ⟨fun _ ↦ ⟨hnumeral, rfl⟩, fun hkind ↦ ?_⟩
    rcases classifyNumber_cases (String.ofList (cs.take n)) with hcase | hcase <;>
      exact absurd (hcase.symm.trans hkind) (by decide)
  unfold numberLexeme
  split
  · next c rest hrest =>
    split_ifs
    · have hlt : n < cs.length := by
        have := exists_of_drop_eq_cons hrest
        omega
      refine .of_shorthand fun _ ↦ ?_
      rwa [List.take_succ_eq_append_getElem hlt, List.dropLast_concat]
    · exact hplain
  · exact hplain

theorem showsNumeral_classifyNumberWord (h : numberWord? cs = some n) :
    ShowsNumeral (classifyNumberWord (String.ofList (cs.take n))) (cs.take n) := by
  unfold classifyNumberWord
  split
  · next kind hkind => exact .of_shorthand fun hm ↦ isNumeral_of_numberWord? h (hm ▸ hkind)
  · exact .of_other rfl (by decide)

theorem showsNumeral_classifyWord (mode : LexMode) (cs : List Char) :
    ShowsNumeral (classifyWord mode (String.ofList (cs.take (word cs)))) (cs.take (word cs)) := by
  unfold classifyWord
  split
  · next kind hkind => exact .of_shorthand fun hm ↦ (not_multiply_of_word (hm ▸ hkind)).elim
  · split_ifs
    · exact .of_other rfl (by decide)
    · exact .of_other rfl (by decide)
    · split
      · split_ifs <;> exact .of_other rfl (by decide)
      · split_ifs <;> exact .of_other rfl (by decide)
      · exact .of_other rfl (by decide)

variable {mode : LexMode} {margin : Option Nat} {c : Char} {kind : TokenKind}

theorem showsNumeral_symbolLexeme? (h : symbolLexeme? mode c cs = some (kind, n)) (ds : List Char) :
    ShowsNumeral kind ds := by
  unfold symbolLexeme? at h
  split_ifs at h
  · obtain ⟨rfl, -⟩ := Prod.mk.inj (Option.some.inj h)
    exact .of_other rfl (by decide)
  · obtain ⟨kind, hkind, heq⟩ := Option.map_eq_some_iff.mp h
    obtain ⟨rfl, -⟩ := Prod.mk.inj heq
    unfold punctuation? at hkind
    split at hkind <;> cases hkind <;> exact .of_other rfl (by decide)

theorem showsNumeral_wordLexeme? (h : wordLexeme? mode c cs = some (kind, n)) :
    ShowsNumeral kind ((c :: cs).take n) := by
  unfold wordLexeme? at h
  dsimp only at h
  split at h
  · obtain ⟨rfl, -⟩ := Prod.mk.inj (Option.some.inj h)
    exact .of_other rfl (by decide)
  split at h
  · obtain ⟨rfl, -⟩ := Prod.mk.inj (Option.some.inj h)
    exact .of_other rfl (by decide)
  split at h
  · next k hk =>
    obtain ⟨rfl, rfl⟩ := Prod.mk.inj (Option.some.inj h)
    exact showsNumeral_classifyNumberWord hk
  split at h
  · next k hk =>
    have hshows := showsNumeral_numberLexeme hk
    rwa [Option.some.inj h] at hshows
  split_ifs at h
  · obtain ⟨rfl, rfl⟩ := Prod.mk.inj (Option.some.inj h)
    exact showsNumeral_classifyWord mode (c :: cs)
  · exact showsNumeral_symbolLexeme? h _

theorem showsNumeral_lexeme? (h : lexeme? mode margin c cs = some (kind, n)) :
    ShowsNumeral kind ((c :: cs).take n) := by
  unfold lexeme? at h
  split_ifs at h
  · obtain ⟨rfl, -⟩ := Prod.mk.inj (Option.some.inj h)
    exact .of_other rfl (by decide)
  · obtain ⟨rfl, -⟩ := Prod.mk.inj (Option.some.inj h)
    exact .of_other rfl (by decide)
  · obtain ⟨rfl, -⟩ := Prod.mk.inj (Option.some.inj h)
    exact .of_other rfl (by decide)
  · obtain ⟨rfl, -⟩ := Prod.mk.inj (Option.some.inj h)
    exact .of_other rfl (by decide)
  · unfold fileLexeme at h
    dsimp only at h
    split_ifs at h <;>
    · obtain ⟨rfl, -⟩ := Prod.mk.inj (Option.some.inj h)
      exact .of_other rfl (by decide)
  · exact showsNumeral_wordLexeme? h

/-! ## Tokens -/

theorem Cuts.showsNumeral {p : Position} {left : List Char} {ts : List Token}
    (h : Cuts mode margin p cs ts left) : ∀ t ∈ ts, ShowsNumeral t.kind t.text.toList := by
  induction h with
  | done => simp
  | token lexeme _ _ ih =>
    refine List.forall_mem_cons.mpr ⟨?_, ih⟩
    rw [String.toList_ofList]
    exact showsNumeral_lexeme? lexeme

/-- How the token is read if it is a number or has a factor. -/
structure ReadsNumbers (t : Token) : Prop where
  number : t.kind.isNumber = true → ReadsNumeral t.text
  zero : t.kind.isNumber = true →
    (t.kind = .zero ↔ ∃ x, readReal? t.text = some x ∧ (x == 0) = true)
  factor : t.kind = .shorthand .multiply → ReadsNumeral (ShorthandKind.multiply.split t.text).1

theorem classifyNumber_eq_zero_iff (text : String) :
    classifyNumber text = .zero ↔ ∃ x, readReal? text = some x ∧ (x == 0) = true := by
  unfold classifyNumber
  cases readReal? text with
  | none => simp
  | some x => cases hx : x == 0 <;> simp [hx]

/-- The numbers and factors of a record are read wherever no point stands right before a sign, and
alike if the letter of the power of ten is written; a number is zero if it is read as one. -/
theorem readsNumbers_of_tokenize {source : String} {ts : List Token}
    (h : tokenize mode source = .ok ts) : ∀ t ∈ ts, ReadsNumbers t := by
  intro t ht
  have hshows := (tokenize_eq_ok_iff.mp h).1.showsNumeral t ht
  constructor
  · intro hnumber
    have hnumeral := (hshows.number hnumber).1.readsNumeral
    rwa [String.ofList_toList] at hnumeral
  · intro hnumber
    have hkind := (hshows.number hnumber).2
    rw [String.ofList_toList] at hkind
    rw [hkind, classifyNumber_eq_zero_iff]
  · intro hmultiply
    exact (hshows.factor hmultiply).readsNumeral

/-- There are such numbers in a record. -/
theorem readsNumbers_of_elided :
    ∃ ts, tokenize .data "vol 1.5+3 2m" = .ok ts ∧
      (∃ t ∈ ts, t.text = "1.5+3") ∧ ∀ t ∈ ts, ReadsNumbers t := by
  have hany : (tokenize .data "vol 1.5+3 2m").toOption.any (·.any (·.text == "1.5+3")) = true := by
    decide +kernel
  obtain ⟨ts, hts, hany⟩ := Except.exists_of_any hany
  obtain ⟨t, ht, htext⟩ := List.any_eq_true.mp hany
  exact ⟨ts, hts, ⟨t, ht, eq_of_beq htext⟩, readsNumbers_of_tokenize hts⟩

/-- No letter is put in behind a point. -/
theorem not_reads_of_point : ∃ ts, tokenize .data "vol 1.+3" = .ok ts ∧
    ∃ t ∈ ts, t.kind = .number ∧ readReal? t.text = none := by
  have hany : (tokenize .data "vol 1.+3").toOption.any
      (·.any fun t ↦ t.kind == .number && (readReal? t.text).isNone) = true := by
    decide +kernel
  obtain ⟨ts, hts, hany⟩ := Except.exists_of_any hany
  obtain ⟨t, ht, hnumber⟩ := List.any_eq_true.mp hany
  rw [Bool.and_eq_true, Option.isNone_iff_eq_none] at hnumber
  exact ⟨ts, hts, t, ht, eq_of_beq hnumber.1, hnumber.2⟩

end Lexer

end TransportDeck
