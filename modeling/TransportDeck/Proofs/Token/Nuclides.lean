import TransportDeck.Proofs.Token.LongerTexts

/-!
# Tokens of nuclides

The name of a nuclide is one token where it stands alone, and so it is with an amount behind it.
Behind a record both leave the tokens of the record as they are, if something sets them apart.
-/

namespace TransportDeck.Lexer

open Text

variable {mode : LexMode} {margin : Option Nat} {kind : TokenKind} {c : Char}
  {cs ds rest : List Char} {n : Nat} {t : Token} {ts : List Token} {p : Position}

/-! ## Kinds -/

/-- Nuclides and marks of continuation have a scanner of their own. -/
theorem scanned_of_wordLexeme? (h : wordLexeme? mode c cs = some (kind, n)) :
    (kind = .nuclide → nuclide? (c :: cs) = some n) ∧ (kind = .ampersand → c = '&' ∧ n = 1) := by
  have hother {k : TokenKind} (hk : (k == .nuclide || k == .ampersand) = false) (heq : k = kind) :
      (kind = .nuclide → nuclide? (c :: cs) = some n) ∧ (kind = .ampersand → c = '&' ∧ n = 1) := by
    subst heq
    constructor <;> rintro rfl <;> cases hk
  unfold wordLexeme? at h
  dsimp only at h
  split at h
  · next k hnuclide =>
    obtain ⟨rfl, rfl⟩ := Prod.mk.inj (Option.some.inj h)
    exact ⟨fun _ ↦ hnuclide, by rintro ⟨⟩⟩
  split at h
  · exact hother rfl (Prod.mk.inj (Option.some.inj h)).1
  split at h
  · refine hother ?_ (Prod.mk.inj (Option.some.inj h)).1
    unfold classifyNumberWord
    split <;> rfl
  have hnumber (text : String) :
      (classifyNumber text == .nuclide || classifyNumber text == .ampersand) = false := by
    unfold classifyNumber
    split
    · split_ifs <;> rfl
    · rfl
  split at h
  · next k _ =>
    refine hother (k := (numberLexeme (c :: cs) k).1) ?_ (congrArg Prod.fst (Option.some.inj h))
    unfold numberLexeme
    split
    · split_ifs
      · rfl
      · exact hnumber _
    · exact hnumber _
  split_ifs at h
  · refine hother ?_ (Prod.mk.inj (Option.some.inj h)).1
    unfold classifyWord
    split
    · rfl
    · split_ifs
      · rfl
      · rfl
      · split
        · split_ifs <;> rfl
        · split_ifs <;> rfl
        · rfl
  · unfold symbolLexeme? at h
    split_ifs at h
    · exact hother rfl (Prod.mk.inj (Option.some.inj h)).1
    · obtain ⟨k, hk, heq⟩ := Option.map_eq_some_iff.mp h
      obtain ⟨rfl, rfl⟩ := Prod.mk.inj heq
      unfold punctuation? at hk
      split at hk <;> cases hk <;>
        first | exact hother rfl rfl | exact ⟨by rintro ⟨⟩, fun _ ↦ ⟨rfl, rfl⟩⟩

theorem nuclide?_of_lexeme? (h : lexeme? .data margin c cs = some (.nuclide, n)) :
    nuclide? (c :: cs) = some n := by
  have hmode : ¬LexMode.data = .read := by decide
  unfold lexeme? at h
  rw [if_neg hmode] at h
  split_ifs at h <;> first | exact (scanned_of_wordLexeme? h).1 rfl | cases h

/-- A mark of continuation is spelled in one way. -/
theorem ampersand_of_lexeme? (hmode : mode ≠ .read)
    (h : lexeme? mode margin c cs = some (.ampersand, n)) : c = '&' ∧ n = 1 := by
  have hword : wordLexeme? mode c cs = some (.ampersand, n) := by
    unfold lexeme? at h
    rw [if_neg hmode] at h
    split_ifs at h <;> first | exact h | cases h
  exact (scanned_of_wordLexeme? hword).2 rfl

/-- Layout that is no comment ends with a break. -/
theorem break_of_isLayout (hmode : mode ≠ .read)
    (h : lexeme? mode margin c (cs ++ rest) = some (kind, (c :: cs).length))
    (hlayout : kind.isLayout = true) (hcomment : kind.isComment = false) :
    ∀ d ∈ (c :: cs).getLast?, d ∈ breaks := by
  have hblank {d : Char} (hd : isAsciiBlank d = true) : d ∈ breaks := by
    simp only [isAsciiBlank, Bool.or_eq_true, beq_iff_eq] at hd
    rcases hd with (((rfl | rfl) | rfl) | rfl) | rfl <;> decide
  have hkind : kind = .space ∨ kind = .ampersand := by
    cases kind <;> first | exact .inl rfl | exact .inr rfl | (cases hlayout; done) | cases hcomment
  intro d hd
  rcases hkind with rfl | rfl
  · obtain ⟨hc, hlength⟩ := (length_of_lexeme? h).2 rfl
    rw [List.length_cons, Nat.add_comm] at hlength
    have hall := take_run isAsciiBlank (cs ++ rest)
    rw [← Nat.add_left_cancel hlength, List.take_left] at hall
    rcases List.mem_cons.mp (List.mem_of_getLast? hd) with rfl | hd
    · exact hblank hc
    · rw [hall] at hd
      exact hblank (List.mem_takeWhile_imp hd)
  · obtain ⟨rfl, hlength⟩ := ampersand_of_lexeme? hmode h
    obtain rfl : cs = [] := by simpa using hlength
    obtain rfl : '&' = d := Option.some.inj hd
    decide

/-- So does a text whose last token is such layout. -/
theorem Cuts.break_of_getLast? (hmode : mode ≠ .read) (h : Cuts mode margin p cs ts rest)
    (ht : t ∈ ts.getLast?) (hlayout : t.isLayout = true) (hcomment : t.kind.isComment = false) :
    ∀ d ∈ (textOf ts).toList.getLast?, d ∈ breaks := by
  obtain ⟨init, rfl⟩ := List.getLast?_eq_some_iff.mp ht
  obtain ⟨mid, -, hlast⟩ := h.exists_of_append
  obtain ⟨kind, c, ds, cs', -, rfl, hlex, -⟩ := hlast.exists_of_cons
  intro d hd
  refine break_of_isLayout hmode hlex hlayout hcomment d ?_
  rw [textOf_append, textOf_cons, textOf_nil, String.append_empty, String.toList_append,
    String.toList_ofList, List.getLast?_append_of_ne_nil _ (List.cons_ne_nil _ _)] at hd
  exact hd

/-! ## Names -/

/-- The name of a nuclide has letters and digits and a point. -/
theorem forall_mem_of_nuclide? (h : nuclide? cs = some cs.length) :
    ∀ d ∈ cs, d.isAlphanum = true ∨ d = '.' := by
  have hdigit {d : Char} {es : List Char} (hd : d ∈ es.take (digits es)) :
      d.isAlphanum = true ∨ d = '.' := by
    rw [digits, take_run] at hd
    left
    rw [Char.isAlphanum, List.mem_takeWhile_imp hd, Bool.or_true]
  have hletter {d : Char} {es : List Char} (hlength : es.length ≤ letters es) (hd : d ∈ es) :
      d.isAlphanum = true ∨ d = '.' := by
    rw [← List.take_of_length_le hlength, letters, take_run] at hd
    left
    rw [Char.isAlphanum, List.mem_takeWhile_imp hd, Bool.true_or]
  unfold nuclide? at h
  dsimp only at h
  split_ifs at h with hn
  split at h
  · next es hes =>
    have hlength : cs.length = digits cs + (es.length + 1) := by
      have hle : digits cs ≤ cs.length := run_le_length _ _
      have hdrop := congrArg List.length hes
      rw [List.length_drop, List.length_cons] at hdrop
      omega
    -- The letters reach to the end, as many as there must be.
    have hends : (es.drop (digits es)).length ≤ letters (es.drop (digits es)) := by
      rw [List.length_drop]
      split_ifs at h with htwo hthree
      · simp only [Bool.and_eq_true, beq_iff_eq, decide_eq_true_eq] at htwo
        have := Option.some.inj h
        omega
      · simp only [Bool.and_eq_true, beq_iff_eq, decide_eq_true_eq] at hthree
        have := Option.some.inj h
        omega
    intro d hd
    rw [← List.take_append_drop (digits cs) cs, hes, List.mem_append, List.mem_cons] at hd
    rcases hd with hd | rfl | hd
    · exact hdigit hd
    · exact .inr rfl
    · rw [← List.take_append_drop (digits es) es, List.mem_append] at hd
      exact hd.elim hdigit (hletter hends)
  · cases h

theorem exists_cons_of_nuclide? (h : nuclide? cs = some n) :
    ∃ c ds, cs = c :: ds ∧ c.isDigit = true := by
  unfold nuclide? at h
  dsimp only at h
  split_ifs at h with hn
  cases cs with
  | nil => simp [digits, run] at hn
  | cons c ds =>
    refine ⟨c, ds, rfl, ?_⟩
    by_contra hc
    rw [digits, run, List.takeWhile_cons_of_neg hc] at hn
    simp at hn

theorem startsSolid_of_nuclide? (h : nuclide? cs = some n) (rest : List Char) :
    StartsSolid (cs ++ rest) := by
  obtain ⟨c, ds, rfl, hc⟩ := exists_cons_of_nuclide? h
  rintro _ ⟨⟩
  exact eq_false_of_integerStarts (mem_integerStarts hc) isAsciiBlank (by decide)

/-- What closes the name leaves it a token. -/
theorem lexeme?_nuclide (h : nuclide? (c :: cs) = some (c :: cs).length) (hrest : Closes rest) :
    lexeme? .data margin c (cs ++ rest) = some (.nuclide, (c :: cs).length) := by
  have hdigit : c.isDigit = true := by
    obtain ⟨_, _, ⟨⟩, hc⟩ := exists_cons_of_nuclide? h
    exact hc
  have not_of := eq_false_of_integerStarts (mem_integerStarts hdigit)
  have hcomment : startsComment margin c (cs ++ rest) = false :=
    startsComment_eq_false (not_of (fun c ↦ c == 'c' || c == 'C') (by decide)) _
  have hword : wordLexeme? .data c (cs ++ rest) = some (.nuclide, (c :: cs).length) := by
    rw [wordLexeme?_of_closes hrest]
    unfold wordLexeme?
    simp only [h]
  unfold lexeme?
  rw [hcomment, hword, not_of (· == '#') (by decide), not_of (· == '$') (by decide),
    not_of isAsciiBlank (by decide)]
  rfl

/-- A text that is one token, which is a nuclide. -/
theorem nuclide?_of_tokenize {zaid : String} {span : Span}
    (h : tokenize .data zaid = .ok [⟨.nuclide, zaid, span⟩]) :
    nuclide? zaid.toList = some zaid.toList.length ∧ byteSize zaid.toList ≤ Limits.tokenBytes := by
  obtain ⟨hcuts, hshort, -⟩ := tokenize_eq_ok_iff.mp h
  refine ⟨?_, (hshort _ (List.mem_singleton_self _)).resolve_left nofun⟩
  obtain ⟨kind, c, ds, cs', htext, htoken, hlex, hnil⟩ := hcuts.exists_of_cons
  cases hnil
  rw [List.append_nil] at htext hlex
  obtain rfl : TokenKind.nuclide = kind := congrArg Token.kind htoken
  rw [htext]
  exact nuclide?_of_lexeme? hlex

/-! ## Longer records -/

/-- A text that is cut into tokens behind a record goes on with those of the record. -/
theorem exists_tokenize_concat {source text : String} {Q : List Token → Prop} (hmode : mode ≠ .read)
    (h : tokenize mode source = .ok ts) (hapart : Apart source.toList text.toList)
    (hbounds : ∀ t ∈ ts.getLast?, Bounds t.kind text.toList)
    (htext : ∀ margin p, ∃ us, Cuts mode margin p text.toList us [] ∧ (∀ t ∈ us, IsShort t) ∧ Q us)
    (hlength : ∀ us, Q us → ts.length + us.length ≤ Limits.tokens) :
    ∃ us, tokenize mode (source ++ text) = .ok (ts ++ us) ∧ Q us := by
  obtain ⟨hcuts, hshort, -⟩ := tokenize_eq_ok_iff.mp h
  have hsource : source.toList = (textOf ts).toList := by simpa using hcuts.eq_append
  obtain ⟨us, hus, husShort, hQ⟩ := htext (marginAfter (some 0) (textOf ts).toList)
    (Position.start.advance (textOf ts).toList)
  have hall := (hcuts.replace hmode (.inl rfl) (hsource ▸ hapart) hbounds).append hus
  rw [← hsource, ← String.toList_append] at hall
  refine ⟨us, tokenize_eq_ok_iff.mpr ⟨hall, List.forall_mem_append.mpr ⟨hshort, husShort⟩, ?_⟩, hQ⟩
  rw [List.length_append]
  exact hlength us hQ

/-- The tokens of a nuclide with the amount one. -/
structure ArePair (zaid : String) (ts : List Token) : Prop where
  exists_tokens : ∃ z space one, ts = [z, space, one] ∧ z.kind = .nuclide ∧ z.text = zaid ∧
    space.kind = .space ∧ one.kind.isNumber = true ∧ one.text = "1"

theorem exists_cuts_pair {zaid : String} (hzaid : nuclide? zaid.toList = some zaid.toList.length)
    (hshort : byteSize zaid.toList ≤ Limits.tokenBytes) (margin : Option Nat) (p : Position) :
    ∃ ts, Cuts .data margin p (zaid ++ " 1").toList ts [] ∧
      (∀ t ∈ ts, IsShort t) ∧ ArePair zaid ts := by
  obtain ⟨c, cs, hcs, -⟩ := exists_cons_of_nuclide? hzaid
  obtain ⟨space, one, hone, hspace, hnumber, htext, hspaceShort, honeShort⟩ :=
    exists_cuts_one (marginAfter margin (c :: cs)) (p.advance (c :: cs))
  rw [hcs] at hzaid
  have hcuts := Cuts.cons (lexeme?_nuclide hzaid (closes_of_isBlank rfl ['1'])) hone
  have hsource : (zaid ++ " 1").toList = c :: cs ++ [' ', '1'] := by
    rw [String.toList_append, hcs]
    rfl
  have hname : String.ofList (c :: cs) = zaid := by rw [← hcs, String.ofList_toList]
  rw [← hsource, hname] at hcuts
  refine ⟨_, hcuts, ?_, ⟨_, space, one, rfl, rfl, rfl, hspace, hnumber, htext⟩⟩
  simp only [List.forall_mem_cons]
  exact ⟨.inr hshort, hspaceShort, honeShort, by simp⟩

/-- A blank in front of a text is a token of its own. -/
theorem exists_cuts_room {room text : String} {Q : List Token → Prop}
    (hroom : room = "" ∨ room = " ") (hsolid : StartsSolid text.toList)
    (h : ∀ margin p, ∃ ts, Cuts mode margin p text.toList ts [] ∧ (∀ t ∈ ts, IsShort t) ∧ Q ts)
    (margin : Option Nat) (p : Position) : ∃ ts, Cuts mode margin p (room ++ text).toList ts [] ∧
      (∀ t ∈ ts, IsShort t) ∧ ∃ ks us, ts = ks ++ us ∧
      (∀ t ∈ ks, t.isLayout = true) ∧ ks.length ≤ 1 ∧ Q us := by
  rcases hroom with rfl | rfl
  · obtain ⟨ts, hcuts, hshort, hQ⟩ := h margin p
    rw [String.empty_append]
    exact ⟨ts, hcuts, hshort, [], ts, rfl, by simp, by simp, hQ⟩
  · obtain ⟨ts, hcuts, hshort, hQ⟩ := h (marginAfter margin [' ']) (p.advance [' '])
    have hblank : lexeme? mode margin ' ' ([] ++ text.toList) = some (.space, 1) :=
      lexeme?_blanks (List.forall_mem_singleton.mpr rfl) hsolid
    refine ⟨_, ?_, List.forall_mem_cons.mpr ⟨.inl rfl, hshort⟩,
      [⟨.space, " ", .ofText p [' ']⟩], ts, rfl, List.forall_mem_singleton.mpr rfl, le_rfl, hQ⟩
    rw [String.toList_append]
    exact @Cuts.cons _ _ _ _ _ _ .space ' ' [] hblank hcuts

end TransportDeck.Lexer
