import TransportDeck.Proofs.Text.LetterCase

/-!
# Numerals

A numeral is a sign, digits with at most one point among them, and a power of ten, whose letter may
be left out in front of its sign.  It is read as a number in any letter case, except where the
letter is left out right behind the point: there none is put in, and nothing is read.
-/

namespace TransportDeck

open Text Lexer

namespace Decimal

/-! ## Cases -/

/-- The sign of a text is its first character, if that is one. -/
theorem readSign_cons (c : Char) (cs : List Char) : readSign (c :: cs) =
    if c = '-' then (true, cs) else if c = '+' then (false, cs) else (false, c :: cs) := by
  unfold readSign
  split
  · next heq =>
    obtain ⟨rfl, rfl⟩ := List.cons.inj heq
    rfl
  · next heq =>
    obtain ⟨rfl, rfl⟩ := List.cons.inj heq
    rfl
  · next hminus hplus =>
    rw [if_neg fun h : c = '-' ↦ hminus cs (h ▸ rfl), if_neg fun h : c = '+' ↦ hplus cs (h ▸ rfl)]

/-- The digits behind a point, if there is one, and what is left. -/
def fractionOf : List Char → List Char × List Char
  | '.' :: cs => (cs.takeWhile Char.isDigit, cs.dropWhile Char.isDigit)
  | cs => ([], cs)

/-- The fraction of a text starts with a point. -/
theorem fractionOf_cons (c : Char) (cs : List Char) : fractionOf (c :: cs) =
    if c = '.' then (cs.takeWhile Char.isDigit, cs.dropWhile Char.isDigit) else ([], c :: cs) := by
  unfold fractionOf
  split
  · next heq =>
    obtain ⟨rfl, rfl⟩ := List.cons.inj heq
    rfl
  · next hpoint => rw [if_neg fun h : c = '.' ↦ hpoint cs (h ▸ rfl)]

/-- A number without its sign needs a digit, in front of the point or behind it. -/
theorem readUnsigned?_eq (negative : Bool) (cs : List Char) : readUnsigned? negative cs =
    if (cs.takeWhile Char.isDigit).isEmpty &&
      (fractionOf (cs.dropWhile Char.isDigit)).1.isEmpty then none
    else (readExponent? (fractionOf (cs.dropWhile Char.isDigit)).2).map fun e ↦
      ⟨negative, natOfDigits (cs.takeWhile Char.isDigit ++
        (fractionOf (cs.dropWhile Char.isDigit)).1),
        e - ((fractionOf (cs.dropWhile Char.isDigit)).1.length : Int)⟩ := rfl

/-! ## Letter case -/

/-- The sign does not depend on the case of letters. -/
theorem readSign_lower (cs : List Char) :
    readSign (lower cs) = ((readSign cs).1, lower (readSign cs).2) := by
  cases cs with
  | nil => rfl
  | cons c cs =>
    rw [lower_cons, readSign_cons, readSign_cons]
    by_cases hminus : c = '-'
    · subst hminus
      rfl
    by_cases hplus : c = '+'
    · subst hplus
      rfl
    have hminus' : c.toLower ≠ '-' := toLower_ne (by decide) hminus
    have hplus' : c.toLower ≠ '+' := toLower_ne (by decide) hplus
    simp only [hminus, hplus, hminus', hplus', if_false, lower_cons]

/-- The fraction does not depend on the case of letters. -/
theorem fractionOf_lower (cs : List Char) :
    fractionOf (lower cs) = ((fractionOf cs).1, lower (fractionOf cs).2) := by
  cases cs with
  | nil => rfl
  | cons c cs =>
    rw [lower_cons, fractionOf_cons, fractionOf_cons]
    by_cases hpoint : c = '.'
    · subst hpoint
      rw [CaseBlind.takeWhile_lower isDigit_toLower, lower_takeWhile_isDigit,
        CaseBlind.dropWhile_lower isDigit_toLower]
      rfl
    · have hpoint' : c.toLower ≠ '.' := toLower_ne (by decide) hpoint
      simp only [hpoint, hpoint', if_false, lower_cons]

/-- The exponent is introduced by a letter in either case. -/
theorem readExponent?_lower (cs : List Char) : readExponent? (lower cs) = readExponent? cs := by
  cases cs with
  | nil => rfl
  | cons c cs =>
    have hletter : (c.toLower == 'e' || c.toLower == 'E') = (c == 'e' || c == 'E') :=
      caseBlind_of_capitals (f := fun c ↦ c == 'e' || c == 'E') (by decide) c
    rw [lower_cons, readExponent?, readExponent?, hletter, readSign_lower]
    dsimp only
    rw [isEmpty_lower, CaseBlind.all_lower isDigit_toLower]
    by_cases hall : (readSign cs).2.all Char.isDigit = true
    · rw [lower_eq_self_of_forall (fun _ ↦ toLower_of_isDigit) (List.all_eq_true.mp hall)]
    · simp only [hall, Bool.and_false]
      rfl

/-- A literal is read alike in either case. -/
theorem readLiteral?_lower (cs : List Char) : readLiteral? (lower cs) = readLiteral? cs := by
  unfold readLiteral?
  rw [readSign_lower]
  dsimp only
  rw [readUnsigned?_eq, readUnsigned?_eq, CaseBlind.takeWhile_lower isDigit_toLower,
    lower_takeWhile_isDigit, CaseBlind.dropWhile_lower isDigit_toLower, fractionOf_lower,
    readExponent?_lower]

end Decimal

namespace Number

/-- A letter is put between a digit and a sign behind it. -/
theorem withExponentLetter_cons_cons (c d : Char) (cs : List Char) :
    withExponentLetter (c :: d :: cs) =
      c :: ((if c.isDigit && isSign d then ['E'] else []) ++ withExponentLetter (d :: cs)) := by
  rw [withExponentLetter]
  change (if (c.isDigit && isSign d) = true then _ else _) = _
  split_ifs <;> rfl

theorem isSign_toLower : CaseBlind isSign := caseBlind_of_capitals (by decide)

/-- The letter that is put in is a letter of the number like any other. -/
theorem lower_withExponentLetter (cs : List Char) :
    lower (withExponentLetter (lower cs)) = lower (withExponentLetter cs) := by
  induction cs with
  | nil => rfl
  | cons c cs ih => cases cs with
    | nil => exact lower_lower [c]
    | cons d cs =>
      rw [lower_cons, lower_cons] at *
      rw [withExponentLetter_cons_cons, withExponentLetter_cons_cons, isDigit_toLower,
        isSign_toLower d, lower_cons, lower_append, ih, toLower_toLower, lower_cons, lower_append]

/-- A number is read alike in any letter case. -/
theorem readReal?_lowerString (s : String) : readReal? (lowerString s) = readReal? s := by
  have hchars : CaseBlind isRealChar := caseBlind_of_capitals (by decide)
  have hletter : Decimal.readLiteral? (withExponentLetter (lower s.toList)) =
      Decimal.readLiteral? (withExponentLetter s.toList) := by
    rw [← Decimal.readLiteral?_lower, lower_withExponentLetter, Decimal.readLiteral?_lower]
  unfold readReal?
  dsimp only
  rw [toList_lowerString, CaseBlind.any_lower isDigit_toLower, hchars.all_lower,
    Decimal.readLiteral?_lower, hletter]

/-- An integer is read alike in either case. -/
theorem readInt?_lowerString (s : String) : readInt? (lowerString s) = readInt? s := by
  unfold readInt?
  rw [toList_lowerString, Decimal.readSign_lower]
  dsimp only
  rw [isEmpty_lower, CaseBlind.all_lower isDigit_toLower]
  by_cases hall : (Decimal.readSign s.toList).2.all Char.isDigit = true
  · rw [lower_eq_self_of_forall (fun _ ↦ toLower_of_isDigit) (List.all_eq_true.mp hall)]
  · simp [hall]

/-! ## The shape of a numeral -/

/-- Digits with at most one point among them. -/
inductive IsMantissa : List Char → Prop
  | integer {ds : List Char} (nonempty : ds ≠ []) (allDigits : ∀ d ∈ ds, d.isDigit = true) :
    IsMantissa ds
  | decimal {ds es : List Char} (nonempty : ds ++ es ≠ []) (allDigits : ∀ d ∈ ds, d.isDigit = true)
      (moreDigits : ∀ d ∈ es, d.isDigit = true) : IsMantissa (ds ++ '.' :: es)

/-- A sign or nothing. -/
def IsOptionalSign (cs : List Char) : Prop := cs = [] ∨ ∃ c, isSign c = true ∧ cs = [c]

def isPowerLetter (c : Char) : Bool := c == 'e' || c == 'E'

/-- A power of ten. -/
inductive IsPower : List Char → Prop
  | letter {c : Char} {sgn ds : List Char} (letter : isPowerLetter c = true)
      (sign : IsOptionalSign sgn) (nonempty : ds ≠ []) (allDigits : ∀ d ∈ ds, d.isDigit = true) :
        IsPower (c :: (sgn ++ ds))
  | elided {c : Char} {ds : List Char} (sign : isSign c = true) (nonempty : ds ≠ [])
      (allDigits : ∀ d ∈ ds, d.isDigit = true) : IsPower (c :: ds)

/-- A sign, digits and perhaps a power of ten. -/
inductive IsNumeral : List Char → Prop
  | mk {sgn digits exponent : List Char} (sign : IsOptionalSign sgn) (mantissa : IsMantissa digits)
      (power : exponent = [] ∨ IsPower exponent) : IsNumeral (sgn ++ (digits ++ exponent))

/-- A point stands right before a sign. -/
def pointBeforeSign : List Char → Bool
  | c :: d :: cs => (c == '.' && isSign d) || pointBeforeSign (d :: cs)
  | _ => false

/-! ### Signs -/

theorem isSign_of_isDigit {c : Char} (h : c.isDigit = true) : isSign c = false := by
  rw [Bool.eq_false_iff]
  intro hs
  simp only [isSign, Bool.or_eq_true, beq_iff_eq] at hs
  rcases hs with rfl | rfl <;> cases h

theorem isSign_of_isPowerLetter {c : Char} (h : isPowerLetter c = true) : isSign c = false := by
  simp only [isPowerLetter, Bool.or_eq_true, beq_iff_eq] at h
  rcases h with rfl | rfl <;> rfl

variable {c s : Char} {as bs cs ds : List Char}

/-- A mantissa has a digit, so it is not empty. -/
theorem IsMantissa.ne_nil (h : IsMantissa cs) : cs ≠ [] := by
  cases h with
  | integer hne => exact hne
  | decimal => simp

/-- There is no sign inside a mantissa. -/
theorem IsMantissa.isSign_eq_false (h : IsMantissa cs) : ∀ c ∈ cs, isSign c = false := by
  cases h with
  | integer _ hds => exact fun c hc ↦ isSign_of_isDigit (hds c hc)
  | decimal _ hds hes =>
    rw [List.forall_mem_append, List.forall_mem_cons]
    exact ⟨fun c hc ↦ isSign_of_isDigit (hds c hc), rfl, fun c hc ↦ isSign_of_isDigit (hes c hc)⟩

/-- Without a sign behind the first character no letter is put in. -/
theorem withExponentLetter_of_forall (has : ∀ a ∈ as, isSign a = false) :
    withExponentLetter (c :: as) = c :: as := by
  induction as generalizing c with
  | nil => rfl
  | cons a as ih =>
    obtain ⟨ha, has⟩ := List.forall_mem_cons.mp has
    rw [withExponentLetter_cons_cons, ha, Bool.and_false, ih has]
    rfl

/-- A letter is put in where a sign follows a digit. -/
theorem withExponentLetter_append (has : ∀ a ∈ as, isSign a = false)
    (hds : ∀ d ∈ ds, isSign d = false) (hs : isSign s = true) :
    withExponentLetter (c :: as ++ s :: ds) =
      c :: as ++ ((if (as.getLastD c).isDigit then ['E'] else []) ++ s :: ds) := by
  induction as generalizing c with
  | nil =>
    rw [List.cons_append, List.nil_append, withExponentLetter_cons_cons, hs, Bool.and_true,
      withExponentLetter_of_forall hds]
    rfl
  | cons a as ih =>
    obtain ⟨ha, has⟩ := List.forall_mem_cons.mp has
    have ih := ih (c := a) has
    rw [List.cons_append] at ih
    rw [List.cons_append, List.cons_append, withExponentLetter_cons_cons, ha, Bool.and_false, ih,
      List.getLastD_cons]
    rfl

/-- Without a sign behind the first character no point stands in front of one. -/
theorem pointBeforeSign_of_forall (has : ∀ a ∈ as, isSign a = false) :
    pointBeforeSign (c :: as) = false := by
  induction as generalizing c with
  | nil => rfl
  | cons a as ih =>
    obtain ⟨ha, has⟩ := List.forall_mem_cons.mp has
    rw [pointBeforeSign, ha, Bool.and_false, ih has]
    rfl

/-- In front of the only sign there is a point if the text up to it ends in one. -/
theorem pointBeforeSign_append (has : ∀ a ∈ as, isSign a = false) (hds : ∀ d ∈ ds, isSign d = false)
    (hs : isSign s = true) : pointBeforeSign (c :: as ++ s :: ds) = (as.getLastD c == '.') := by
  induction as generalizing c with
  | nil =>
    rw [List.cons_append, List.nil_append, pointBeforeSign, hs, Bool.and_true,
      pointBeforeSign_of_forall hds, Bool.or_false]
    rfl
  | cons a as ih =>
    obtain ⟨ha, has⟩ := List.forall_mem_cons.mp has
    have ih := ih (c := a) has
    rw [List.cons_append] at ih
    rw [List.cons_append, List.cons_append, pointBeforeSign, ha, Bool.and_false, Bool.false_or, ih,
      List.getLastD_cons]

/-! ### Reading -/

/-- Behind its sign, the mantissa is what is read. -/
theorem readSign_append_mantissa {sgn : List Char} (hsgn : IsOptionalSign sgn) (h : IsMantissa cs)
    (rest : List Char) : (Decimal.readSign (sgn ++ (cs ++ rest))).2 = cs ++ rest := by
  obtain rfl | ⟨c, hc, rfl⟩ := hsgn
  · obtain ⟨c, cs, rfl⟩ := List.exists_cons_of_ne_nil h.ne_nil
    have hc : isSign c = false := h.isSign_eq_false c List.mem_cons_self
    simp only [isSign, Bool.or_eq_false_iff, beq_eq_false_iff_ne] at hc
    rw [List.nil_append, List.cons_append, Decimal.readSign_cons, if_neg hc.2, if_neg hc.1]
  · simp only [isSign, Bool.or_eq_true, beq_iff_eq] at hc
    rcases hc with rfl | rfl <;> rfl

/-- What is taken from digits and a rest is the digits, if the rest does not go on with one. -/
theorem takeWhile_append_stop {p : Char → Bool} {rest : List Char} (hds : ∀ d ∈ ds, p d = true)
    (hrest : ∀ c ∈ rest.head?, p c = false) :
    (ds ++ rest).takeWhile p = ds ∧ (ds ++ rest).dropWhile p = rest := by
  rw [List.takeWhile_append_of_pos hds, List.dropWhile_append_of_pos hds]
  cases rest with
  | nil => exact ⟨List.append_nil _, rfl⟩
  | cons c rest =>
    have hc : ¬p c = true := by simp [hrest c rfl]
    rw [List.takeWhile_cons_of_neg hc, List.dropWhile_cons_of_neg hc]
    exact ⟨List.append_nil _, rfl⟩

/-- What cannot go on with a mantissa. -/
def EndsMantissa (rest : List Char) : Prop := ∀ c ∈ rest.head?, c.isDigit = false ∧ c ≠ '.'

/-- Behind a mantissa a number is read if an exponent is, or nothing. -/
theorem isSome_readUnsigned? {rest : List Char} (h : IsMantissa cs) (hrest : EndsMantissa rest)
    (negative : Bool) :
    (Decimal.readUnsigned? negative (cs ++ rest)).isSome = (Decimal.readExponent? rest).isSome := by
  rw [Decimal.readUnsigned?_eq]
  cases h with
  | integer hne hds =>
    obtain ⟨htake, hdrop⟩ := takeWhile_append_stop hds fun c hc ↦ (hrest c hc).1
    have hnone : Decimal.fractionOf rest = ([], rest) := by
      cases rest with
      | nil => rfl
      | cons c rest => rw [Decimal.fractionOf_cons, if_neg (hrest c rfl).2]
    simp [htake, hdrop, hnone, hne]
  | @decimal ds es hne hds hes =>
    have hpoint : ∀ c ∈ List.head? ('.' :: (es ++ rest)), c.isDigit = false := by simp
    obtain ⟨htake, hdrop⟩ := takeWhile_append_stop hds hpoint
    obtain ⟨htake', hdrop'⟩ := takeWhile_append_stop hes fun c hc ↦ (hrest c hc).1
    have hdigits : ¬(ds = [] ∧ es = []) := by simpa using hne
    simp only [List.append_assoc, List.cons_append, htake, hdrop, Decimal.fractionOf_cons, if_true,
      htake', hdrop', List.isEmpty_iff, Bool.and_eq_true, hdigits, if_false, Option.isSome_map]

/-- Behind a sign and a mantissa a literal is read if an exponent is, or nothing. -/
theorem isSome_readLiteral? {sgn rest : List Char} (hsgn : IsOptionalSign sgn) (h : IsMantissa cs)
    (hrest : EndsMantissa rest) :
    (Decimal.readLiteral? (sgn ++ (cs ++ rest))).isSome = (Decimal.readExponent? rest).isSome := by
  have hsign := readSign_append_mantissa hsgn h rest
  unfold Decimal.readLiteral?
  dsimp only
  rw [hsign]
  exact isSome_readUnsigned? h hrest _

/-- A letter, a sign and digits are an exponent. -/
theorem isSome_readExponent? {l : Char} {sgn : List Char} (hl : isPowerLetter l = true)
    (hsgn : IsOptionalSign sgn) (hne : ds ≠ []) (hds : ∀ d ∈ ds, d.isDigit = true) :
    (Decimal.readExponent? (l :: (sgn ++ ds))).isSome = true := by
  have hsign : (Decimal.readSign (sgn ++ ds)).2 = ds := by
    simpa using readSign_append_mantissa hsgn (.integer hne hds) []
  have hl : (l == 'e' || l == 'E') = true := hl
  simp [Decimal.readExponent?, hl, hsign, hne, List.all_eq_true.mpr hds]

/-- A bare sign is no exponent. -/
theorem readExponent?_of_isSign (hs : isSign s = true) :
    Decimal.readExponent? (s :: ds) = none := by
  have hs : (s == 'e' || s == 'E') = false := by
    simp only [isSign, Bool.or_eq_true, beq_iff_eq] at hs
    rcases hs with rfl | rfl <;> rfl
  rw [Decimal.readExponent?, hs]
  rfl

/-! ### Numerals as lists with at most one sign behind the first character -/

/-- A numeral is in front of its power of ten without a sign but at its start, and ends in a digit
or a point. -/
theorem exists_lead {sgn : List Char} (hsgn : IsOptionalSign sgn) (h : IsMantissa cs) :
    ∃ c as, sgn ++ cs = c :: as ∧ (∀ a ∈ as, isSign a = false) ∧
      ((as.getLastD c).isDigit = true ∨ as.getLastD c = '.') := by
  have hlast : ∀ c ∈ cs.getLast?, c.isDigit = true ∨ c = '.' := by
    intro c hc
    obtain ⟨cs, rfl⟩ := List.getLast?_eq_some_iff.mp hc
    have hmem : c ∈ cs ++ [c] := by simp
    generalize cs ++ [c] = cs at h hmem
    cases h with
    | integer _ hds => exact .inl (hds c hmem)
    | decimal _ hds hes =>
      rcases List.mem_append.mp hmem with hmem | hmem
      · exact .inl (hds c hmem)
      · exact (List.mem_cons.mp hmem).symm.imp_left (hes c)
  obtain ⟨c, cs', rfl⟩ := List.exists_cons_of_ne_nil h.ne_nil
  have hlast : (cs'.getLastD c).isDigit = true ∨ cs'.getLastD c = '.' :=
    hlast _ (by rw [List.getLast?_cons, List.getLastD_eq_getLast?]; rfl)
  obtain rfl | ⟨s, -, rfl⟩ := hsgn
  · exact ⟨c, cs', rfl, fun a ha ↦ h.isSign_eq_false a (List.mem_cons_of_mem _ ha), hlast⟩
  · exact ⟨s, c :: cs', rfl, h.isSign_eq_false, by rwa [List.getLastD_cons]⟩

/-- A sign behind `lead` starts a power of ten without its letter. -/
structure IsElided (cs lead : List Char) (s : Char) (ds : List Char) : Prop where
  eq : cs = lead ++ s :: ds
  sign : isSign s = true
  edge : ∃ c ∈ lead.getLast?, c.isDigit = true ∨ c = '.'

/-- In front of an elided letter there is a digit or a point. -/
theorem IsElided.exists_cons {lead : List Char} (h : IsElided cs lead s ds) :
    ∃ c as, lead = c :: as ∧ ((as.getLastD c).isDigit = true ∨ as.getLastD c = '.') := by
  obtain ⟨b, hb, hedge⟩ := h.edge
  cases lead with
  | nil => cases hb
  | cons c as =>
    rw [List.getLast?_cons, Option.mem_some] at hb
    exact ⟨c, as, rfl, by rwa [List.getLastD_eq_getLast?, hb]⟩

/-- There is only one sign behind the first character. -/
theorem eq_of_append_eq {c c' s' : Char} {as' bs : List Char} (has : ∀ a ∈ as, isSign a = false)
    (hds : ∀ d ∈ ds, isSign d = false) (hs : isSign s' = true)
    (h : c :: as ++ s :: ds = c' :: as' ++ s' :: bs) : c = c' ∧ as = as' ∧ s = s' ∧ ds = bs := by
  induction as generalizing c c' as' with
  | nil => cases as' with
    | nil => simpa using h
    | cons a' as' =>
      simp only [List.cons_append, List.nil_append, List.cons.injEq] at h
      have := hds s' (by rw [h.2.2]; simp)
      rw [hs] at this
      cases this
  | cons a as ih => cases as' with
    | nil =>
      simp only [List.cons_append, List.nil_append, List.cons.injEq] at h
      have := has a List.mem_cons_self
      rw [h.2.1, hs] at this
      cases this
    | cons a' as' =>
      obtain ⟨hc, h⟩ := List.cons.inj h
      obtain ⟨rfl, rfl, rfl, rfl⟩ := ih (fun b hb ↦ has b (List.mem_cons_of_mem _ hb)) h
      exact ⟨hc, rfl, rfl, rfl⟩

/-! ### Reading numerals -/

/-- A text is read as a number unless a point stands right before a sign, and alike if the letter of
the power of ten is written. -/
structure ReadsNumeral (text : String) : Prop where
  isSome_eq : (readReal? text).isSome = !pointBeforeSign text.toList
  elided {lead ds : List Char} {s : Char} : IsElided text.toList lead s ds →
    ∃ x, readReal? (String.ofList (lead ++ 'E' :: s :: ds)) = some x ∧
      (pointBeforeSign text.toList = false → readReal? text = some x)

/-- Where no sign stands behind the first character, nothing is elided. -/
theorem not_isElided {lead bs : List Char} (has : ∀ a ∈ as, isSign a = false) :
    ¬IsElided (c :: as) lead s bs := by
  intro h
  obtain ⟨c', as', rfl, -⟩ := h.exists_cons
  have hs := has s (by rw [(List.cons.inj h.eq).2]; simp)
  rw [h.sign] at hs
  cases hs

/-- The power of ten has its letter, or there is none. -/
structure IsPlain (cs : List Char) : Prop where
  isSome : (Decimal.readLiteral? cs).isSome = true
  no_point : pointBeforeSign cs = false
  not_elided {lead ds : List Char} {s : Char} : ¬IsElided cs lead s ds

variable {sgn : List Char}

/-- A mantissa alone is plain. -/
theorem isPlain_mantissa (hsgn : IsOptionalSign sgn) (h : IsMantissa cs) : IsPlain (sgn ++ cs) := by
  have hends : EndsMantissa [] := by simp [EndsMantissa]
  have hsome := isSome_readLiteral? hsgn h hends
  rw [List.append_nil] at hsome
  obtain ⟨c, as, heq, has, -⟩ := exists_lead hsgn h
  rw [heq] at hsome ⊢
  exact {
    isSome := hsome.trans rfl
    no_point := pointBeforeSign_of_forall has
    not_elided := not_isElided has }

/-- A mantissa with a letter in front of its power is plain. -/
theorem isPlain_letter {l : Char} {sgn' : List Char} (hsgn : IsOptionalSign sgn) (h : IsMantissa cs)
    (hl : isPowerLetter l = true) (hsgn' : IsOptionalSign sgn') (hne : ds ≠ [])
    (hds : ∀ d ∈ ds, d.isDigit = true) : IsPlain (sgn ++ (cs ++ l :: (sgn' ++ ds))) := by
  have hletter : l.isDigit = false ∧ l ≠ '.' := by
    simp only [isPowerLetter, Bool.or_eq_true, beq_iff_eq] at hl
    rcases hl with rfl | rfl <;> decide
  have hends : EndsMantissa (l :: (sgn' ++ ds)) := by
    rintro _ ⟨⟩
    exact hletter
  have hsome := isSome_readLiteral? hsgn h hends
  rw [isSome_readExponent? hl hsgn' hne hds] at hsome
  obtain ⟨c, as, heq, has, -⟩ := exists_lead hsgn h
  have hds' : ∀ d ∈ ds, isSign d = false := fun d hd ↦ isSign_of_isDigit (hds d hd)
  obtain rfl | ⟨s, hs, rfl⟩ := hsgn'
  · have hfree : ∀ a ∈ as ++ l :: ds, isSign a = false := by
      rw [List.forall_mem_append, List.forall_mem_cons]
      exact ⟨has, isSign_of_isPowerLetter hl, hds'⟩
    have hwhole : sgn ++ (cs ++ l :: ([] ++ ds)) = c :: (as ++ l :: ds) := by
      rw [← List.append_assoc, heq]
      rfl
    rw [hwhole] at hsome ⊢
    exact {
      isSome := hsome
      no_point := pointBeforeSign_of_forall hfree
      not_elided := not_isElided hfree }
  · have hfree : ∀ a ∈ as ++ [l], isSign a = false := by
      rw [List.forall_mem_append, List.forall_mem_singleton]
      exact ⟨has, isSign_of_isPowerLetter hl⟩
    have hlast : (as ++ [l]).getLastD c = l := List.getLastD_concat ..
    have hwhole : sgn ++ (cs ++ l :: ([s] ++ ds)) = c :: (as ++ [l]) ++ s :: ds := by
      rw [← List.append_assoc, heq]
      simp
    rw [hwhole] at hsome ⊢
    refine { isSome := hsome, no_point := ?_, not_elided := fun helided ↦ ?_ }
    · rw [pointBeforeSign_append hfree hds' hs, hlast]
      exact beq_eq_false_iff_ne.mpr hletter.2
    · obtain ⟨c', as', rfl, hedge⟩ := helided.exists_cons
      obtain ⟨rfl, rfl, -⟩ := eq_of_append_eq hfree hds' helided.sign helided.eq
      rw [hlast] at hedge
      rcases hedge with hdigit | hpoint
      · rw [hletter.1] at hdigit
        cases hdigit
      · exact hletter.2 hpoint

/-! ### What is read -/

/-- Numerals are made of the characters that numbers may have. -/
theorem IsNumeral.isReal (h : IsNumeral cs) :
    cs.any Char.isDigit = true ∧ cs.all isRealChar = true := by
  have digit {ds : List Char} (hds : ∀ d ∈ ds, d.isDigit = true) :
      ∀ d ∈ ds, isRealChar d = true := by
    intro d hd
    simp [isRealChar, hds d hd]
  have sign {sgn : List Char} (hsgn : IsOptionalSign sgn) : ∀ c ∈ sgn, isRealChar c = true := by
    rintro c hc
    obtain rfl | ⟨s, hs, rfl⟩ := hsgn
    · cases hc
    · obtain rfl := List.mem_singleton.mp hc
      simp only [isSign, Bool.or_eq_true, beq_iff_eq] at hs
      rcases hs with rfl | rfl <;> rfl
  have mantissa {ds : List Char} (hds : IsMantissa ds) :
      ds.any Char.isDigit = true ∧ ∀ d ∈ ds, isRealChar d = true := by
    cases hds with
    | integer hne hds =>
      obtain ⟨d, hd⟩ := List.exists_mem_of_ne_nil _ hne
      exact ⟨List.any_eq_true.mpr ⟨d, hd, hds d hd⟩, digit hds⟩
    | decimal hne hds hes =>
      obtain ⟨d, hd⟩ := List.exists_mem_of_ne_nil _ hne
      refine ⟨List.any_eq_true.mpr ⟨d, ?_, ?_⟩, ?_⟩
      · rcases List.mem_append.mp hd with hd | hd <;> simp [hd]
      · rcases List.mem_append.mp hd with hd | hd
        · exact hds d hd
        · exact hes d hd
      · rw [List.forall_mem_append, List.forall_mem_cons]
        exact ⟨digit hds, rfl, digit hes⟩
  obtain @⟨sgn, digits, exponent, hsgn, hdigits, hpower⟩ := h
  have hexponent : ∀ c ∈ exponent, isRealChar c = true := by
    obtain rfl | hpower := hpower
    · simp
    cases hpower with
    | @letter l _ _ hl hsgn _ hds =>
      have hl : isRealChar l = true := by
        simp only [isPowerLetter, Bool.or_eq_true, beq_iff_eq] at hl
        rcases hl with rfl | rfl <;> rfl
      rw [List.forall_mem_cons, List.forall_mem_append]
      exact ⟨hl, sign hsgn, digit hds⟩
    | @elided s _ hs _ hds =>
      rw [List.forall_mem_cons]
      exact ⟨sign (.inr ⟨s, hs, rfl⟩) s (by simp), digit hds⟩
  obtain ⟨hany, hall⟩ := mantissa hdigits
  rw [List.any_append, List.any_append, hany, List.all_eq_true,
    List.forall_mem_append, List.forall_mem_append]
  exact ⟨by simp, sign hsgn, hall, hexponent⟩

/-- A numeral is read as it stands, or with the letter put in. -/
theorem IsNumeral.readReal?_eq (h : IsNumeral cs) : readReal? (String.ofList cs) =
    ((Decimal.readLiteral? cs).or (Decimal.readLiteral? (withExponentLetter cs))).map
      (·.toFloat) := by
  unfold readReal?
  dsimp only
  rw [String.toList_ofList, h.isReal.1, h.isReal.2]
  cases Decimal.readLiteral? cs <;> rfl

/-- A plain numeral is read as the number that it spells. -/
theorem IsPlain.readsNumeral (h : IsPlain cs) (hcs : IsNumeral cs) :
    ReadsNumeral (String.ofList cs) where
  isSome_eq := by
    obtain ⟨l, hl⟩ := Option.isSome_iff_exists.mp h.isSome
    rw [hcs.readReal?_eq, hl, String.toList_ofList, h.no_point]
    rfl
  elided helided := by
    rw [String.toList_ofList] at helided
    exact absurd helided h.not_elided

/-- Every numeral is read, or refused, as it is spelled. -/
theorem IsNumeral.readsNumeral (h : IsNumeral cs) : ReadsNumeral (String.ofList cs) := by
  have hcs := h
  obtain @⟨sgn, digits, exponent, hsgn, hdigits, rfl | hpower⟩ := h
  · rw [List.append_nil] at hcs ⊢
    exact (isPlain_mantissa hsgn hdigits).readsNumeral hcs
  cases hpower with
  | letter hl hsgn' hne hds => exact (isPlain_letter hsgn hdigits hl hsgn' hne hds).readsNumeral hcs
  | @elided s ds hs hne hds =>
    have hwritten : IsNumeral (sgn ++ (digits ++ 'E' :: ([s] ++ ds))) :=
      .mk hsgn hdigits (.inr (.letter rfl (.inr ⟨s, hs, rfl⟩) hne hds))
    have hplain := isPlain_letter hsgn hdigits (l := 'E') rfl (.inr ⟨s, hs, rfl⟩) hne hds
    obtain ⟨l, hl⟩ := Option.isSome_iff_exists.mp hplain.isSome
    have hnone : Decimal.readLiteral? (sgn ++ (digits ++ s :: ds)) = none := by
      have hends : EndsMantissa (s :: ds) := by
        rintro _ ⟨⟩
        simp only [isSign, Bool.or_eq_true, beq_iff_eq] at hs
        rcases hs with rfl | rfl <;> decide
      rw [← Option.not_isSome_iff_eq_none, isSome_readLiteral? hsgn hdigits hends,
        readExponent?_of_isSign hs]
      exact Bool.false_ne_true
    have hds' : ∀ d ∈ ds, isSign d = false := fun d hd ↦ isSign_of_isDigit (hds d hd)
    obtain ⟨c, as, heq, has, hedge⟩ := exists_lead hsgn hdigits
    have hwhole : sgn ++ (digits ++ s :: ds) = c :: as ++ s :: ds := by
      rw [← List.append_assoc, heq]
    have hpoint : pointBeforeSign (sgn ++ (digits ++ s :: ds)) = !(as.getLastD c).isDigit := by
      rw [hwhole, pointBeforeSign_append has hds' hs]
      rcases hedge with hdigit | hpoint
      · rw [hdigit, Bool.not_true, beq_eq_false_iff_ne]
        intro h
        rw [h] at hdigit
        cases hdigit
      · rw [hpoint]
        rfl
    have hletter : withExponentLetter (sgn ++ (digits ++ s :: ds)) =
        sgn ++ (digits ++ ((if (as.getLastD c).isDigit then ['E'] else []) ++ s :: ds)) := by
      rw [hwhole, withExponentLetter_append has hds' hs, ← heq, List.append_assoc]
    have hread : readReal? (String.ofList (sgn ++ (digits ++ s :: ds))) =
        if (as.getLastD c).isDigit then some l.toFloat else none := by
      rw [hcs.readReal?_eq, hnone, hletter, Option.none_or]
      split_ifs
      · exact congrArg (Option.map _) hl
      · exact congrArg (Option.map _) hnone
    constructor
    · rw [hread, String.toList_ofList, hpoint, Bool.not_not]
      cases (as.getLastD c).isDigit <;> rfl
    · intro lead bs s' helided
      rw [String.toList_ofList, hwhole] at helided
      obtain ⟨c', as', rfl, -⟩ := helided.exists_cons
      obtain ⟨rfl, rfl, rfl, rfl⟩ := eq_of_append_eq has hds' helided.sign helided.eq
      refine ⟨l.toFloat, ?_, fun hclear ↦ ?_⟩
      · have hwhole' : c :: as ++ 'E' :: s :: ds = sgn ++ (digits ++ 'E' :: ([s] ++ ds)) := by
          rw [← heq, List.append_assoc]
          rfl
        rw [hwhole', hwritten.readReal?_eq, hl]
        rfl
      · rw [String.toList_ofList, hpoint, Bool.not_eq_false'] at hclear
        rw [hread, if_pos hclear]

end Number

end TransportDeck
