import TransportDeck.Grammar.Atoms
import TransportDeck.Proofs.Token.Boundaries

/-!
# The tokens of a parameter

A parameter that is written anew is a keyword, perhaps particles, an equals sign and an integer.
Each of these ends where the next one starts, so the text has the same tokens wherever it is put.
-/

namespace TransportDeck

open Text

namespace Lexer

/-! ## Words -/

theorem isAlpha_iff {c : Char} : c.isAlpha = true ↔
    65 ≤ c.toNat ∧ c.toNat ≤ 90 ∨ 97 ≤ c.toNat ∧ c.toNat ≤ 122 := by
  unfold Char.isAlpha Char.isUpper Char.isLower
  simp only [Bool.or_eq_true, Bool.and_eq_true, decide_eq_true_iff]
  exact Iff.rfl

theorem isAlpha_toLower (c : Char) : c.toLower.isAlpha = c.isAlpha := by
  rcases toLower_cases c with hc | ⟨hc, hge, hle⟩
  · rw [hc]
  · rw [Bool.eq_iff_iff, isAlpha_iff, isAlpha_iff]
    omega

/-- The letters, as a list that can be searched. -/
def alphabet : List Char := "ABCDEFGHIJKLMNOPQRSTUVWXYZabcdefghijklmnopqrstuvwxyz".toList

theorem mem_alphabet {c : Char} (h : c.isAlpha = true) : c ∈ alphabet := by
  have hmem : ∀ n : Nat, 65 ≤ n ∧ n ≤ 90 ∨ 97 ≤ n ∧ n ≤ 122 → Char.ofNat n ∈ alphabet := by
    rintro n (⟨hge, hle⟩ | ⟨hge, hle⟩) <;> interval_cases n <;> decide
  rw [← Char.ofNat_toNat c]
  exact hmem _ (isAlpha_iff.mp h)

/-- What no letter is. -/
theorem eq_false_of_isAlpha {c : Char} (h : c.isAlpha = true) (p : Char → Bool)
    (hp : alphabet.all (!p ·) = true) : p c = false := by
  simpa using List.all_eq_true.mp hp c (mem_alphabet h)

/-- The characters among which the designators of particles are. -/
def designators : List Char := alphabet ++ Vocabulary.particles.map Prod.fst

theorem mem_designators {c : Char} (h : Vocabulary.isParticle c = true) : c ∈ designators := by
  by_cases halpha : c.isAlpha = true
  · exact List.mem_append_left _ (mem_alphabet halpha)
  · -- What is no letter has no other case.
    have hlower : ¬('a'.val ≤ c.val ∧ c.val ≤ 'z'.val) :=
      fun hlower ↦ halpha (isAlpha_iff.mpr (.inr hlower))
    have hupper : c.toUpper = c := dif_neg hlower
    rw [Vocabulary.isParticle, Vocabulary.particleName?, hupper,
      Option.isSome_map, List.find?_isSome] at h
    obtain ⟨particle, hmem, heq⟩ := h
    exact List.mem_append_right _ (List.mem_map.mpr ⟨particle, hmem, beq_iff_eq.mp heq⟩)

/-- What no designator is. -/
theorem eq_false_of_isParticle {c : Char} (h : Vocabulary.isParticle c = true) (p : Char → Bool)
    (hp : designators.all (fun c ↦ !Vocabulary.isParticle c || !p c) = true) : p c = false := by
  have := List.all_eq_true.mp hp c (mem_designators h)
  rw [h] at this
  simpa using this

/-- The marks that stand between the words of a name and behind it. -/
def joints : List Char := [':', ',', '=']

variable {margin : Option Nat} {rest : List Char}

/-- A word in front of a mark is lexed whole. -/
theorem lexeme?_word {mode : LexMode} (hmode : mode ≠ .read) {c d : Char} {tail : List Char}
    (halpha : ∀ a ∈ c :: tail, a.isAlpha = true) (hd : d ∈ joints) :
    lexeme? mode margin c (tail ++ d :: rest) =
      some (classifyWord mode (String.ofList (c :: tail)), (c :: tail).length) := by
  obtain ⟨hc, htail⟩ := List.forall_mem_cons.mp halpha
  have not_of := eq_false_of_isAlpha hc
  have mark {p : Char → Bool} (hp : joints.all (!p ·) = true) : p d = false := by
    simpa using List.all_eq_true.mp hp d hd
  have hrun {p : Char → Bool} (htrue : ∀ a, a.isAlpha = true → p a = true)
    (hp : joints.all (!p ·) = true)
      {cs : List Char} (hcs : ∀ a ∈ cs, a.isAlpha = true) : run p (cs ++ d :: rest) = cs.length :=
    run_append (fun a ha ↦ htrue a (hcs a ha)) (by rintro _ ⟨⟩; exact mark hp)
  have hdigits (cs : List Char) : digits (c :: cs) = 0 :=
    @run_append _ [] _ (by simp) (by rintro _ ⟨⟩; exact not_of Char.isDigit (by decide))
  have hsign (cs : List Char) : sign (c :: cs) = 0 := by simp [sign, not_of isSign (by decide)]
  have hpoint : c ≠ '.' := by simpa using not_of (· == '.') (by decide)
  have hdpoint : d ≠ '.' := by simpa using mark (p := (· == '.')) (by decide)
  have hlaw : run isLawChar (tail ++ d :: rest) = tail.length :=
    hrun (fun a ha ↦ by simp [isLawChar, Char.isAlphanum, ha]) (by decide) htail
  have hletters : letters (c :: (tail ++ d :: rest)) = (c :: tail).length :=
    hrun (fun _ ↦ id) (by decide) halpha
  have hmore : run (fun a ↦ a.isAlpha || a == '.' || a == '/') (d :: rest) = 0 :=
    @run_append _ [] _ (by simp) (by
      rintro _ ⟨⟩
      exact mark (p := fun a ↦ a.isAlpha || a == '.' || a == '/') (by decide))
  have htake : (c :: (tail ++ d :: rest)).take (c :: tail).length = c :: tail := by
    rw [← List.cons_append, List.take_left]
  have hdrop : (c :: (tail ++ d :: rest)).drop (c :: tail).length = d :: rest := by
    rw [← List.cons_append, List.drop_left]
  have hword : word (c :: (tail ++ d :: rest)) = (c :: tail).length := by
    unfold word
    rw [hletters]
    dsimp only
    rw [hdrop, hmore]
    rfl
  have hlexeme : wordLexeme? mode c (tail ++ d :: rest) =
      some (classifyWord mode (String.ofList (c :: tail)), (c :: tail).length) := by
    have hnuclide : nuclide? (c :: (tail ++ d :: rest)) = none := by simp [nuclide?, hdigits]
    have hthermal : thermalLaw? (c :: (tail ++ d :: rest)) = none := by
      simp [thermalLaw?, hlaw, hdpoint]
    have hnumberWord : numberWord? (c :: (tail ++ d :: rest)) = none := by
      simp [numberWord?, hsign, hdigits]
    have hnumber : number? (c :: (tail ++ d :: rest)) = none := by
      simp [number?, hsign, hdigits, hpoint]
    unfold wordLexeme?
    simp only [hnuclide, hthermal, hnumberWord, hnumber, hword, htake]
    rfl
  have hends : endsLine (tail ++ d :: rest) = false := by
    cases tail with
    | nil => exact mark (p := isAsciiBlank) (by decide)
    | cons a as => exact eq_false_of_isAlpha (htail a List.mem_cons_self) isAsciiBlank (by decide)
  have hcomment : startsComment margin c (tail ++ d :: rest) = false := by
    unfold startsComment
    split
    · rw [hends, Bool.and_false]
    · rfl
  unfold lexeme?
  rw [hcomment, hlexeme, not_of (· == '#') (by decide), not_of (· == '$') (by decide),
    not_of isAsciiBlank (by decide), if_neg Bool.false_ne_true, if_neg Bool.false_ne_true,
    if_neg Bool.false_ne_true,
    if_neg Bool.false_ne_true, if_neg hmode]

/-- The marks of a name are lexemes of their own. -/
theorem lexeme?_joint {d : Char} (hd : d ∈ joints) (rest : List Char) :
    ∃ kind, punctuation? d = some kind ∧ lexeme? .cell margin d rest = some (kind, 1) := by
  have hcomment : startsComment margin d rest = false :=
    startsComment_eq_false (by fin_cases hd <;> rfl) rest
  unfold lexeme?
  rw [hcomment]
  fin_cases hd <;> exact ⟨_, rfl, rfl⟩

/-! ## Keywords -/

theorem lower_of_isKeyword {name : String} (h : Vocabulary.isKeyword name = true) :
    ∃ k ∈ Vocabulary.keywords, lower name.toList = lower k.toList := by
  obtain ⟨k, hk, heq⟩ := List.any_eq_true.mp h
  exact ⟨k, hk, (beq_iff_eq.mp heq).symm⟩

theorem classifyWord_of_isKeyword {name : String} (h : Vocabulary.isKeyword name = true) :
    classifyWord .cell name = .keyword := by
  obtain ⟨k, hk, hlower⟩ := lower_of_isKeyword h
  have hall : Vocabulary.keywords.all (ShorthandKind.classify? · == none) = true := by
    decide +kernel
  have hnone : ShorthandKind.classify? name = none := by
    have : ShorthandKind.classify? name = ShorthandKind.classify? k := by
      unfold ShorthandKind.classify?
      rw [hlower]
    rw [this]
    simpa using List.all_eq_true.mp hall k hk
  have hmode : ¬LexMode.cell = .surface := by decide
  unfold classifyWord
  rw [hnone]
  simp [h, hmode]

theorem isAlpha_of_isKeyword {name : String} (h : Vocabulary.isKeyword name = true) :
    name.toList ≠ [] ∧ name.toList.length ≤ 6 ∧ ∀ c ∈ name.toList, c.isAlpha = true := by
  obtain ⟨k, hk, hlower⟩ := lower_of_isKeyword h
  have hall : Vocabulary.keywords.all (fun k ↦ k.toList ≠ [] ∧ k.toList.length ≤ 6 ∧
      (lower k.toList).all Char.isAlpha = true) = true := by decide +kernel
  have hk := List.all_eq_true.mp hall k hk
  simp only [decide_eq_true_eq] at hk
  have hlength : name.toList.length = k.toList.length := by
    simpa [lower] using congrArg List.length hlower
  refine ⟨?_, by omega, fun c hc ↦ ?_⟩
  · intro hnil
    rw [hnil] at hlength
    exact hk.1 (List.eq_nil_of_length_eq_zero hlength.symm)
  · rw [← isAlpha_toLower]
    rw [← hlower] at hk
    exact List.all_eq_true.mp hk.2.2 _ (List.mem_map_of_mem hc)

/-! ## Parameters -/

theorem byteSize_le_four (cs : List Char) : byteSize cs ≤ 4 * cs.length := by
  induction cs with
  | nil => exact le_rfl
  | cons c cs ih =>
    have := c.utf8Size_le_four
    change c.utf8Size + byteSize cs ≤ 4 * (cs.length + 1)
    omega

open Production in
/-- A letter that stands for a particle is lexed as such. -/
theorem isParticleToken_of_letter {c : Char} (hc : c.isAlpha = true)
    (hparticle : Vocabulary.isParticle c = true) (span : Span) :
    isParticleToken ⟨classifyWord .cell (String.ofList [c]), String.ofList [c], span⟩ = true := by
  have hall : alphabet.all (fun c ↦ !Vocabulary.isParticle c ||
      isParticleToken ⟨classifyWord .cell (String.ofList [c]), String.ofList [c], .point .start⟩) =
      true := by
    decide +kernel
  have := List.all_eq_true.mp hall c (mem_alphabet hc)
  rw [hparticle] at this
  exact this

/-- The text of a list of particles behind its colon. -/
def particleText : List Char → List Char
  | [] => []
  | c :: cs => c :: cs.flatMap fun d ↦ [',', d]

theorem particleText_append (cs : List Char) (d : Char) (ds : List Char) :
    particleText (cs ++ d :: ds) = (cs.flatMap fun c ↦ [c, ',']) ++ particleText (d :: ds) := by
  induction cs with
  | nil => rfl
  | cons c cs ih =>
    obtain ⟨e, es, hes⟩ : ∃ e es, cs ++ d :: ds = e :: es := List.exists_cons_of_ne_nil (by simp)
    rw [List.cons_append, List.flatMap_cons, List.append_assoc, ← ih, hes]
    rfl

/-- Whatever stands in front of it, the text has tokens of which `Q` holds. -/
def CutsAs (cs : List Char) (Q : List Token → Prop) : Prop :=
  ∀ margin p, ∃ ts, Cuts .cell margin p cs ts [] ∧ (∀ t ∈ ts, IsShort t) ∧ Q ts

namespace CutsAs

variable {Q R : List Token → Prop} {cs : List Char} {d : Char}

theorem joint (hd : d ∈ joints) (h : CutsAs cs Q) :
    CutsAs (d :: cs) fun ts ↦ ∃ t us, ts = t :: us ∧ punctuation? d = some t.kind ∧
      t.text = String.ofList [d] ∧ Q us := by
  intro margin p
  obtain ⟨kind, hkind, hlex⟩ : ∃ kind, _ ∧ lexeme? .cell margin d cs = some (kind, 1) :=
    lexeme?_joint hd cs
  obtain ⟨ts, hts, hshort, hQ⟩ := h (marginAfter margin [d]) (p.advance [d])
  refine ⟨_, @Cuts.cons _ _ _ _ _ _ _ _ [] hlex hts, List.forall_mem_cons.mpr ⟨.inr ?_, hshort⟩,
    _, _, rfl, hkind, rfl, hQ⟩
  have := byteSize_le_four [d]
  have hlimit : Limits.tokenBytes = 4096 := rfl
  rw [String.toList_ofList, hlimit]
  simp only [List.length_singleton] at this
  omega

theorem word {word : List Char} (hne : word ≠ []) (halpha : ∀ a ∈ word, a.isAlpha = true)
    (hlength : word.length ≤ 6) (hd : d ∈ joints) (h : CutsAs (d :: cs) Q) :
    CutsAs (word ++ d :: cs) fun ts ↦ ∃ t us, ts = t :: us ∧
      t.kind = classifyWord .cell (String.ofList word) ∧ t.text = String.ofList word ∧ Q us := by
  intro margin p
  obtain ⟨c, tail, rfl⟩ := List.exists_cons_of_ne_nil hne
  obtain ⟨ts, hts, hshort, hQ⟩ := h (marginAfter margin (c :: tail)) (p.advance (c :: tail))
  refine ⟨_, .cons (lexeme?_word (by decide) halpha hd) hts,
    List.forall_mem_cons.mpr ⟨.inr ?_, hshort⟩, _, _, rfl,
    rfl, rfl, hQ⟩
  have := byteSize_le_four (c :: tail)
  have hlimit : Limits.tokenBytes = 4096 := rfl
  rw [String.toList_ofList, hlimit]
  omega

theorem integer {n : Int} (hn : Number.minInt ≤ n ∧ n ≤ Number.maxInt) :
    CutsAs (toString n).toList fun ts ↦ ∃ t, ts = [t] ∧ t.kind.isNumber = true ∧
      t.text = toString n := by
  intro margin p
  have hinteger := isInteger_toString n
  obtain ⟨c, tail, hcs⟩ := List.exists_cons_of_ne_nil hinteger.ne_nil
  obtain ⟨kind, hkind, hlex⟩ : ∃ kind, _ ∧ lexeme? .cell margin c (tail ++ []) = some (kind, _) :=
    hinteger.lexeme?_append (by simp [EndsNumber]) hcs
  rw [hcs] at hlex
  have hcuts : Cuts .cell margin p _ _ [] := .cons hlex .done
  rw [List.append_nil, ← hcs, String.ofList_toList] at hcuts
  exact ⟨_, hcuts, by simpa [IsShort] using Or.inr (byteSize_toString_le hn), _, rfl, hkind, rfl⟩

open Production in
/-- Further letters of a list of particles, up to the mark behind it. -/
theorem moreLetters {letters : List Char} (hletters : ∀ c ∈ letters, c.isAlpha = true ∧
    Vocabulary.isParticle c = true) (hd : d ∈ joints) (h : CutsAs (d :: cs) Q) :
    CutsAs ((letters.flatMap fun c ↦ [',', c]) ++ d :: cs) fun ts ↦ ∃ ps us, ts = ps ++ us ∧
      (∀ t ∈ ps, isParticleToken t = true) ∧
      (textOf ps).toList = (letters.flatMap fun c ↦ [',', c]) ∧ Q us := by
  induction letters with
  | nil =>
    intro margin p
    obtain ⟨us, hus, hshort, hQ⟩ := h margin p
    exact ⟨us, hus, hshort, [], us, rfl, by simp, rfl, hQ⟩
  | cons c letters ih =>
    obtain ⟨⟨halpha, hparticle⟩, hrest⟩ := List.forall_mem_cons.mp hletters
    obtain ⟨e, es, hes, he⟩ : ∃ e es, (letters.flatMap fun c ↦ [',', c]) ++ d :: cs = e :: es ∧
        e ∈ joints := by
      cases letters with
      | nil => exact ⟨d, cs, rfl, hd⟩
      | cons c' letters => exact ⟨',', _, rfl, by decide⟩
    have hih := ih hrest
    rw [hes] at hih
    have hword := word (List.cons_ne_nil c []) (by simpa using halpha) (by simp) he hih
    have hcomma := joint (d := ',') (by decide) hword
    intro margin p
    obtain ⟨ts, hts, hshort, comma, _, rfl, hkind, hcommaText, t, _, rfl, htkind, httext, ps,
        us, rfl, hps, htext, hQ⟩ :=
      hcomma margin p
    refine ⟨comma :: t :: (ps ++ us), ?_, hshort, comma :: t :: ps, us, rfl, ?_, ?_, hQ⟩
    · rw [List.flatMap_cons, List.append_assoc, hes]
      exact hts
    · rintro u (_ | ⟨_, _ | ⟨_, hu⟩⟩)
      · obtain ⟨k, text, span⟩ := comma
        obtain rfl : TokenKind.comma = k := Option.some.inj hkind
        rfl
      · obtain ⟨k, text, span⟩ := t
        obtain rfl : k = _ := htkind
        obtain rfl : text = _ := httext
        exact isParticleToken_of_letter halpha hparticle span
      · exact hps u hu
    · rw [textOf_cons, textOf_cons, hcommaText, httext, String.toList_append,
        String.toList_append, htext]
      simp

end CutsAs

end Lexer

open Production

/-- The text of a list of particles with its colon; where there are none it is empty. -/
def particleSource (letters : List Char) : List Char :=
  if letters.isEmpty then [] else ':' :: Lexer.particleText letters

/-- The text of a parameter that has one integer. -/
def keywordSource (name : String) (letters : List Char) (n : Int) : List Char :=
  name.toList ++ (particleSource letters ++ '=' :: (toString n).toList)

/-- The tokens of a list of particles. -/
def AreParticles (letters : List Char) (qs : List Token) : Prop :=
  if letters.isEmpty then qs = [] else ∃ colon ps, qs = colon :: ps ∧ colon.kind = .colon ∧
    (∀ t ∈ ps, isParticleToken t = true) ∧ (textOf ps).toList = Lexer.particleText letters

/-- The tokens of a parameter that has one integer. -/
structure AreKeywordParameter (name : String) (letters : List Char) (n : Int) (ts : List Token) :
    Prop where
  exists_tokens : ∃ word qs equals number, ts = word :: (qs ++ [equals, number]) ∧
    word.kind = .keyword ∧ word.text = name ∧ AreParticles letters qs ∧ equals.kind = .equals ∧
    number.kind.isNumber = true ∧
    number.text = toString n

namespace Lexer

/-- What none of the characters of such a text is. -/
theorem eq_false_of_mem_keywordSource {name : String} {letters : List Char} {n : Int} {c : Char}
    (hname : Vocabulary.isKeyword name = true) (hletters : ∀ c ∈ letters, c.isAlpha = true)
    (hc : c ∈ keywordSource name letters n) (p : Char → Bool)
    (hp : (alphabet ++ joints ++ integerStarts).all (!p ·) = true) : p c = false := by
  rw [List.all_append, List.all_append, Bool.and_eq_true, Bool.and_eq_true] at hp
  have hjoint {d : Char} (hd : d ∈ joints) : p d = false := by
    simpa using List.all_eq_true.mp hp.1.2 d hd
  have hparticles : c ∈ particleSource letters → p c = false := fun hc ↦ by
    unfold particleSource at hc
    split_ifs at hc
    · cases hc
    · rcases List.mem_cons.mp hc with rfl | hc
      · exact hjoint (by decide)
      · cases letters with
        | nil => cases hc
        | cons d ds =>
          obtain ⟨hd, hds⟩ := List.forall_mem_cons.mp hletters
          rcases List.mem_cons.mp hc with rfl | hc
          · exact eq_false_of_isAlpha hd p hp.1.1
          · obtain ⟨e, he, hc⟩ := List.mem_flatMap.mp hc
            rcases List.mem_cons.mp hc with rfl | hc
            · exact hjoint (by decide)
            · rw [List.mem_singleton.mp hc]
              exact eq_false_of_isAlpha (hds e he) p hp.1.1
  rcases List.mem_append.mp hc with hc | hc
  · exact eq_false_of_isAlpha ((isAlpha_of_isKeyword hname).2.2 c hc) p hp.1.1
  · rcases List.mem_append.mp hc with hc | hc
    · exact hparticles hc
    · rcases List.mem_cons.mp hc with rfl | hc
      · exact hjoint (by decide)
      · exact eq_false_of_integerStarts (mem_integerStarts_of_mem_toString hc) p hp.2

/-- Such a text starts with a letter and ends in a digit. -/
theorem exists_getLast?_keywordSource (name : String) (letters : List Char) (n : Int) :
    ∃ c ∈ (keywordSource name letters n).getLast?, c ∈ integerStarts := by
  have hne := (isInteger_toString n).ne_nil
  refine ⟨(toString n).toList.getLast hne, ?_,
    mem_integerStarts_of_mem_toString (List.getLast_mem hne)⟩
  rw [keywordSource, List.getLast?_append, List.getLast?_append, List.getLast?_cons,
    List.getLast?_eq_some_getLast hne]
  rfl

theorem startsSolid_keywordSource {name : String} (hname : Vocabulary.isKeyword name = true)
    (letters : List Char) (n : Int) : StartsSolid (keywordSource name letters n) := by
  obtain ⟨hne, -, halpha⟩ := isAlpha_of_isKeyword hname
  obtain ⟨c, cs, hcs⟩ := List.exists_cons_of_ne_nil hne
  intro d hd
  rw [keywordSource, hcs] at hd
  obtain rfl := Option.some.inj hd
  exact eq_false_of_isAlpha (halpha c (by simp [hcs])) isAsciiBlank (by decide)

/-- The text of a parameter is lexed as its tokens, whatever stands in front of it. -/
theorem cutsAs_keywordParameter {name : String} {letters : List Char} {n : Int}
    (hname : Vocabulary.isKeyword name = true)
    (hletters : ∀ c ∈ letters, c.isAlpha = true ∧ Vocabulary.isParticle c = true)
    (hn : Number.minInt ≤ n ∧ n ≤ Number.maxInt) :
    CutsAs (keywordSource name letters n) (AreKeywordParameter name letters n) := by
  obtain ⟨hne, hlength, halpha⟩ := isAlpha_of_isKeyword hname
  have hvalue := (CutsAs.integer hn).joint (d := '=') (by decide)
  have hkeyword : classifyWord .cell (String.ofList name.toList) = .keyword := by
    rw [String.ofList_toList]
    exact classifyWord_of_isKeyword hname
  cases letters with
  | nil =>
    intro margin p
    obtain ⟨ts, hts, hshort, word, _, rfl, hkind, htext, equals, _, rfl, hequals, -,
        number, rfl, hnumber, hntext⟩ :=
      CutsAs.word hne halpha hlength (by decide) hvalue margin p
    refine ⟨_, hts, hshort, word, [], equals, number, rfl, hkind.trans hkeyword, ?_, rfl,
      (Option.some.inj hequals).symm, hnumber, hntext⟩
    rw [htext, String.ofList_toList]
  | cons c letters =>
    obtain ⟨⟨hcalpha, hparticle⟩, hrest⟩ := List.forall_mem_cons.mp hletters
    have hmore := hvalue.moreLetters hrest (by decide)
    obtain ⟨e, es, hes, he⟩ : ∃ e es,
      (letters.flatMap fun c ↦ [',', c]) ++ '=' :: (toString n).toList = e :: es ∧
        e ∈ joints := by
      cases letters with
      | nil => exact ⟨'=', _, rfl, by decide⟩
      | cons c' letters => exact ⟨',', _, rfl, by decide⟩
    rw [hes] at hmore
    have hletter := CutsAs.word (List.cons_ne_nil c []) (by simpa using hcalpha) (by simp) he hmore
    have hcolon := hletter.joint (d := ':') (by decide)
    intro margin p
    obtain ⟨ts, hts, hshort, word, _, rfl, hkind, htext, colon, _, rfl, hcolon, -, t, _,
      rfl, htkind, httext, ps, _,
      rfl, hps, hptext, equals, _, rfl, hequals, -, number, rfl, hnumber, hntext⟩ :=
      CutsAs.word hne halpha hlength (by decide) hcolon margin p
    refine ⟨_, ?_, hshort, word, colon :: t :: ps, equals, number, rfl,
      hkind.trans hkeyword, ?_, ?_, (Option.some.inj hequals).symm, hnumber, hntext⟩
    · rw [← hes] at hts
      simpa [keywordSource, particleSource, particleText] using hts
    · rw [htext, String.ofList_toList]
    · refine ⟨colon, t :: ps, rfl,
        (Option.some.inj hcolon).symm, List.forall_mem_cons.mpr ⟨?_, hps⟩, ?_⟩
      · obtain ⟨k, text, span⟩ := t
        obtain rfl : k = _ := htkind
        obtain rfl : text = _ := httext
        exact isParticleToken_of_letter hcalpha hparticle span
      · rw [textOf_cons, httext, String.toList_append, hptext]
        simp [particleText]

end Lexer

end TransportDeck
