import Mathlib.Tactic
import TransportDeck.Token.Lexer
import TransportDeck.Token.Stream

/-!
# What lexing keeps

The texts of the tokens make up the record, and moving through a stream of tokens only ever splits
what is left of it.  Most kinds of tokens have many spellings; but marks have one, and a jump has
its letter in each.
-/

namespace TransportDeck

/-! ## Texts of tokens -/

@[simp] theorem textOf_nil : textOf [] = "" := rfl

@[simp] theorem textOf_cons (t : Token) (ts : List Token) :
    textOf (t :: ts) = t.text ++ textOf ts := String.join_cons

@[simp] theorem textOf_append (ts us : List Token) :
    textOf (ts ++ us) = textOf ts ++ textOf us := by
  simp [textOf, String.join_append]

/-- What is no layout is no comment. -/
theorem TokenKind.isComment_of_isLayout {kind : TokenKind} (h : kind.isLayout = false) :
    kind.isComment = false := by
  revert h
  cases kind <;> first | exact fun _ ↦ rfl | exact nofun

namespace Lexer

/-- Lexing leaves nothing out. -/
theorem textOf_tokensFrom {mode : LexMode} {margin : Option Nat} {p : Position} {count : Nat}
    {cs : List Char} {ts : List Token} (h : tokensFrom mode margin p count cs = .ok ts) :
    textOf ts = String.ofList cs := by
  induction hn : cs.length using Nat.strong_induction_on generalizing margin p count cs ts with
  | _ n ih =>
    cases cs with
    | nil =>
      rw [tokensFrom] at h
      obtain rfl := Except.ok.inj h
      rfl
    | cons c cs =>
      rw [tokensFrom] at h
      split_ifs at h
      split at h
      · cases h
      · next kind k hlex =>
        dsimp only at h
        split_ifs at h
        split at h
        · next rest hrest =>
          obtain rfl := Except.ok.inj h
          have hlt : (cs.drop (k - 1)).length < n := by
            subst hn
            simp only [List.length_drop, List.length_cons]
            omega
          rw [textOf_cons, ih _ hlt hrest rfl, ← String.ofList_append, List.cons_append,
            List.take_append_drop]
        · cases h

/-! ## Spelling -/

/-- The letter that a jump is spelled with. -/
def isJumpLetter (c : Char) : Bool := c == 'j' || c == 'J'

/-- Only capitals change, and all by the same distance. -/
theorem toLower_cases (c : Char) :
    c.toLower = c ∨ c.toLower.toNat = c.toNat + 32 ∧ 65 ≤ c.toNat ∧ c.toNat ≤ 90 := by
  unfold Char.toLower
  split
  · next h =>
    have hge : 65 ≤ c.val.toNat := h.1
    have hle : c.val.toNat ≤ 90 := h.2
    refine .inr ⟨?_, hge, hle⟩
    change (c.val + ('a'.val - 'A'.val)).toNat = c.val.toNat + 32
    rw [UInt32.toNat_add]
    change (c.val.toNat + 32) % 2 ^ 32 = c.val.toNat + 32
    omega
  · exact .inl rfl

/-- Both cases of `j` are the letter of a jump. -/
theorem isJumpLetter_of_toLower {c : Char} (h : c.toLower = 'j') : isJumpLetter c = true := by
  rcases toLower_cases c with hc | ⟨hc, -⟩
  · rw [← hc, h]
    rfl
  · rw [h] at hc
    have hcap : c.toNat = 'J'.toNat := (Nat.add_right_cancel (m := 32) hc).symm
    obtain rfl := Char.toNat_inj.mp hcap
    rfl

theorem isDigit_iff {c : Char} : c.isDigit = true ↔ 48 ≤ c.toNat ∧ c.toNat ≤ 57 := by
  unfold Char.isDigit
  rw [Bool.and_eq_true, decide_eq_true_iff, decide_eq_true_iff]
  exact Iff.rfl

/-- A letter in lower case is no digit. -/
theorem isDigit_toLower (c : Char) : c.toLower.isDigit = c.isDigit := by
  rcases toLower_cases c with hc | ⟨hc, hge, hle⟩
  · rw [hc]
  · rw [Bool.eq_iff_iff, isDigit_iff, isDigit_iff]
    omega

/-- The letter that jumps and repeats are spelled with. -/
def countedLetter : ShorthandKind → Char
  | .jump => 'j'
  | _ => 'r'

/-- A jump or a repeat is digits and its letter. -/
theorem counted_of_classify? {text : String} {kind : ShorthandKind}
    (hkind : kind = .jump ∨ kind = .copies) (h : ShorthandKind.classify? text = some kind) :
    ∃ ds c, text.toList = ds ++ [c] ∧ (∀ d ∈ ds, d.isDigit = true) ∧
      c.toLower = countedLetter kind := by
  have hcounted : ShorthandKind.counted (String.singleton (countedLetter kind))
      (Text.lower text.toList) = true := by
    unfold ShorthandKind.classify? at h
    dsimp only at h
    split_ifs at h with hj hr
    · obtain rfl := Option.some.inj h
      exact hj
    · obtain rfl := Option.some.inj h
      exact hr
    · obtain rfl := Option.some.inj h
      rcases hkind with hk | hk <;> cases hk
    · obtain rfl := Option.some.inj h
      rcases hkind with hk | hk <;> cases hk
    · split at h
      · split_ifs at h
        obtain rfl := Option.some.inj h
        rcases hkind with hk | hk <;> cases hk
      · cases h
  unfold ShorthandKind.counted Text.dropEnding? at hcounted
  split_ifs at hcounted with hsuffix
  obtain ⟨us, hus⟩ := List.isSuffixOf_iff_suffix.mp hsuffix
  rw [String.toList_singleton] at hus hcounted
  obtain ⟨ds, cs, htext, rfl, hcs⟩ := List.map_eq_append_iff.mp hus.symm
  obtain ⟨c, rfl, hc⟩ := List.map_eq_singleton_iff.mp hcs
  refine ⟨ds, c, htext, fun d hd ↦ ?_, hc⟩
  rw [← hus] at hcounted
  simp only [List.length_append, List.length_singleton, Nat.add_sub_cancel, List.take_left',
    List.all_eq_true, List.mem_map] at hcounted
  rw [← isDigit_toLower]
  exact hcounted _ ⟨d, hd, rfl⟩

/-- A word that is classified as a jump has the letter of a jump. -/
theorem isJumpLetter_of_classify? {text : String}
    (h : ShorthandKind.classify? text = some .jump) : ∃ c ∈ text.toList, isJumpLetter c = true := by
  obtain ⟨ds, c, htext, -, hc⟩ := counted_of_classify? (.inl rfl) h
  refine ⟨c, ?_, isJumpLetter_of_toLower hc⟩
  rw [htext]
  exact List.mem_append_right _ (List.mem_singleton_self c)

/-- The text of the marks that have only one. -/
def spelling? : TokenKind → Option String
  | .complement => some "#"
  | .leftParen => some "("
  | .rightParen => some ")"
  | .colon => some ":"
  | .equals => some "="
  | _ => none

/-! ### How numbers and runs end -/

/-- Numbers end with digits and points, and the tokens of runs with letters. -/
def numeralEnds : List Char :=
  ['0', '1', '2', '3', '4', '5', '6', '7', '8', '9', '.', 'j', 'J', 'r', 'R', 'g', 'G', 'i', 'I',
    'm', 'M']

/-- The last character is one that numbers and the tokens of runs end with. -/
def EndsNumeral (cs : List Char) : Prop := ∃ d ∈ cs.getLast?, d ∈ numeralEnds

theorem mem_numeralEnds_of_isDigit {d : Char} (h : d.isDigit = true) : d ∈ numeralEnds := by
  obtain ⟨hge, hle⟩ := isDigit_iff.mp h
  have hnat : d.toNat ∈ (numeralEnds.take 10).map Char.toNat := by
    have hdigits : (numeralEnds.take 10).map Char.toNat =
      [48, 49, 50, 51, 52, 53, 54, 55, 56, 57] := by decide
    rw [hdigits]
    simp only [List.mem_cons, List.not_mem_nil, or_false]
    omega
  obtain ⟨e, he, heq⟩ := List.mem_map.mp hnat
  rw [← Char.toNat_inj.mp heq]
  exact List.mem_of_mem_take he

/-- Both cases of the letters end runs. -/
theorem mem_numeralEnds_of_toLower {d : Char} (h : d.toLower ∈ ['j', 'r', 'g', 'i', 'm']) :
    d ∈ numeralEnds := by
  rcases toLower_cases d with hd | ⟨hd, -⟩
  · rw [hd] at h
    fin_cases h <;> decide
  · have hcap : d.toNat ∈ (['J', 'R', 'G', 'I', 'M'] : List Char).map Char.toNat := by
      generalize d.toLower = e at h hd
      fin_cases h
      all_goals
        have hnat := (Nat.add_right_cancel (m := 32) hd).symm
        rw [hnat]
        decide
    obtain ⟨e, he, heq⟩ := List.mem_map.mp hcap
    rw [← Char.toNat_inj.mp heq]
    fin_cases he <;> decide

namespace EndsNumeral

variable {cs : List Char} {a b : Nat}

/-- The part behind tells how a part ends. -/
theorem of_drop (h : EndsNumeral ((cs.drop a).take b)) : EndsNumeral (cs.take (a + b)) := by
  obtain ⟨d, hd, hmem⟩ := h
  refine ⟨d, ?_, hmem⟩
  rw [List.take_add, List.getLast?_append, Option.mem_def.mp hd]
  rfl

theorem of_digits (h : 0 < digits cs) : EndsNumeral (cs.take (digits cs)) := by
  have htake : cs.takeWhile Char.isDigit = cs.take (digits cs) :=
    List.prefix_iff_eq_take.mp (List.takeWhile_prefix _)
  have hne : cs.takeWhile Char.isDigit ≠ [] := List.ne_nil_of_length_pos h
  rw [← htake]
  exact ⟨_, List.getLast?_eq_some_getLast hne, mem_numeralEnds_of_isDigit
    (List.all_eq_true.mp List.all_takeWhile _ (List.getLast_mem hne))⟩

/-- A number ends with a digit or a point. -/
theorem of_number? {n : Nat} (h : number? cs = some n) : EndsNumeral (cs.take n) := by
  unfold number? at h
  extract_lets s ds mantissa at h
  obtain ⟨k, hk, rfl⟩ := Option.map_eq_some_iff.mp h
  by_cases hexponent : exponent (cs.drop k) = 0
  · rw [hexponent, Nat.add_zero]
    unfold mantissa at hk
    split at hk
    · next rest hrest =>
      extract_lets m at hk
      split_ifs at hk with hnone
      obtain rfl := Option.some.inj hk
      have hpoint : cs.drop (s + ds + 1) = rest := by rw [← List.drop_drop, hrest]; rfl
      by_cases hm : m = 0
      · rw [hm, Nat.add_zero]
        refine of_drop ?_
        rw [hrest]
        exact ⟨'.', rfl, by decide⟩
      · refine of_drop ?_
        rw [hpoint]
        exact of_digits (Nat.pos_of_ne_zero hm)
    · split_ifs at hk with hds
      obtain rfl := Option.some.inj hk
      refine of_drop (of_digits (Nat.pos_of_ne_zero ?_))
      simpa using hds
  · refine of_drop ?_
    generalize cs.drop k = cs at hexponent ⊢
    unfold exponent at hexponent ⊢
    dsimp only at hexponent ⊢
    split_ifs at hexponent ⊢ with hpositive
    · refine of_drop (of_digits ?_)
      simp only [Bool.and_eq_true, decide_eq_true_eq] at hpositive
      exact hpositive.2
    · exact absurd rfl hexponent

/-- A word that is classified as a shorthand ends with its letter. -/
theorem of_classify? {text : String} {kind : ShorthandKind}
    (h : ShorthandKind.classify? text = some kind) : EndsNumeral text.toList := by
  have ends {es us : List Char} {e : Char} (hes : es.getLast? = some e)
      (he : e ∈ ['j', 'r', 'g', 'i', 'm'])
      (hdrop : Text.dropEnding? es (Text.lower text.toList) = some us) :
      EndsNumeral text.toList := by
    unfold Text.dropEnding? at hdrop
    split_ifs at hdrop with hsuffix
    obtain ⟨ds, hds⟩ := List.isSuffixOf_iff_suffix.mp hsuffix
    have hlast : (Text.lower text.toList).getLast? = some e := by
      rw [← hds, List.getLast?_append, hes]
      rfl
    rw [Text.lower, List.getLast?_map] at hlast
    obtain ⟨d, hd, rfl⟩ := Option.map_eq_some_iff.mp hlast
    exact ⟨d, hd, mem_numeralEnds_of_toLower he⟩
  have counted {letters : String} {e : Char} (hletters : letters.toList.getLast? = some e)
      (he : e ∈ ['j', 'r', 'g', 'i', 'm'])
      (hcounted : ShorthandKind.counted letters (Text.lower text.toList) = true) :
      EndsNumeral text.toList := by
    unfold ShorthandKind.counted at hcounted
    split at hcounted
    · next hdrop => exact ends hletters he hdrop
    · cases hcounted
  unfold ShorthandKind.classify? at h
  dsimp only at h
  split_ifs at h with hj hr hlog hi
  · exact counted (e := 'j') rfl (by decide) hj
  · exact counted (e := 'r') rfl (by decide) hr
  · rcases Bool.or_eq_true_iff.mp hlog with hlog | hlog
    · exact counted (e := 'g') rfl (by decide) hlog
    · exact counted (e := 'g') rfl (by decide) hlog
  · exact counted (e := 'i') rfl (by decide) hi
  · split at h
    · next hdrop => exact ends (e := 'm') rfl (by decide) hdrop
    · cases h

end EndsNumeral

/-! ### Spelled tokens -/

/-- A jump shows its letter, marks are spelled as they must be, and numbers and the tokens of runs
end as such. -/
structure Spells (kind : TokenKind) (text : String) : Prop where
  jump : kind = .shorthand .jump → ∃ c ∈ text.toList, isJumpLetter c = true
  mark : ∀ s ∈ spelling? kind, text = s
  numeral : kind.isNumber = true ∨ kind.isShorthand = true → EndsNumeral text.toList

/-- A word that is classified as a shorthand spells it. -/
theorem Spells.of_shorthand {text : String} {kind : ShorthandKind}
    (h : ShorthandKind.classify? text = some kind) : Spells (.shorthand kind) text where
  jump := by
    rintro ⟨⟩
    exact isJumpLetter_of_classify? h
  mark := by simp [spelling?]
  numeral _ := .of_classify? h

/-- A kind without a fixed spelling is spelled by any text. -/
theorem Spells.of_plain {kind : TokenKind} {text : String} (hnumber : kind.isNumber = false)
    (hshorthand : kind.isShorthand = false) (hmark : spelling? kind = none) :
    Spells kind text where
  jump h := by
    subst h
    cases hshorthand
  mark := by simp [hmark]
  numeral h := by simp [hnumber, hshorthand] at h

/-- Numbers are spelled by what ends as one. -/
theorem spells_classifyNumber (text : String) {text' : String} (h : EndsNumeral text'.toList) :
    Spells (classifyNumber text) text' := by
  have plain {kind : TokenKind} (hkind : kind.isNumber = true) : Spells kind text' := by
    refine ⟨?_, ?_, fun _ ↦ h⟩
    · rintro rfl
      cases hkind
    · cases kind <;> first | cases hkind; done | simp [spelling?]
  unfold classifyNumber
  split
  · split_ifs <;> exact plain rfl
  · exact plain rfl

/-- Numbers, and the factors that they run into, are spelled by their text. -/
theorem spells_numberLexeme {cs : List Char} {n : Nat} (h : number? cs = some n) :
    Spells (numberLexeme cs n).1 (String.ofList (cs.take (numberLexeme cs n).2)) := by
  have hnumber := EndsNumeral.of_number? h
  unfold numberLexeme
  dsimp only
  split
  · next c rest hrest =>
    split_ifs with hfactor
    · refine ⟨nofun, by simp [spelling?], fun _ ↦ ?_⟩
      rw [String.toList_ofList]
      refine .of_drop ?_
      rw [hrest]
      refine ⟨c, rfl, ?_⟩
      simp only [Bool.and_eq_true, Bool.or_eq_true, beq_iff_eq] at hfactor
      rcases hfactor.1 with rfl | rfl <;> decide
    · exact spells_classifyNumber _ (by rwa [String.toList_ofList])
  · exact spells_classifyNumber _ (by rwa [String.toList_ofList])

theorem le_numberLexeme (cs : List Char) (n : Nat) : n ≤ (numberLexeme cs n).2 := by
  unfold numberLexeme
  dsimp only
  split
  · split_ifs
    · exact Nat.le_succ n
    · exact le_rfl
  · exact le_rfl

theorem spells_classifyNumberWord (text : String) : Spells (classifyNumberWord text) text := by
  unfold classifyNumberWord
  split
  · next h => exact .of_shorthand h
  · exact .of_plain rfl rfl rfl

theorem spells_classifyWord (mode : LexMode) (text : String) :
    Spells (classifyWord mode text) text := by
  unfold classifyWord
  split
  · next h => exact .of_shorthand h
  · split_ifs
    · exact .of_plain rfl rfl rfl
    · exact .of_plain rfl rfl rfl
    · split
      · split_ifs <;> exact .of_plain rfl rfl rfl
      · split_ifs <;> exact .of_plain rfl rfl rfl
      · exact .of_plain rfl rfl rfl

/-- A mark is spelled by itself. -/
theorem spells_symbolLexeme? {mode : LexMode} {c : Char} {cs : List Char} {kind : TokenKind}
    {n : Nat} (h : symbolLexeme? mode c cs = some (kind, n)) :
    Spells kind (String.ofList (c :: cs.take (n - 1))) := by
  unfold symbolLexeme? at h
  split_ifs at h
  · obtain ⟨rfl, -⟩ := Prod.mk.inj (Option.some.inj h)
    exact .of_plain rfl rfl rfl
  · obtain ⟨kind, hkind, heq⟩ := Option.map_eq_some_iff.mp h
    obtain ⟨rfl, rfl⟩ := Prod.mk.inj heq
    unfold punctuation? at hkind
    split at hkind <;> cases hkind <;>
      first | exact .of_plain rfl rfl rfl | exact ⟨nofun, by rintro _ ⟨⟩; rfl, nofun⟩

theorem numberWord?_pos {cs : List Char} {n : Nat} (h : numberWord? cs = some n) : 0 < n := by
  unfold numberWord? at h
  dsimp only at h
  split_ifs at h with hn
  simp only [beq_iff_eq] at hn
  split at h
  · split_ifs at h
    obtain rfl := Option.some.inj h
    omega
  · cases h

/-- A word spells what it is classified as. -/
theorem spells_wordLexeme? {mode : LexMode} {c : Char} {cs : List Char} {kind : TokenKind}
    {n : Nat} (h : wordLexeme? mode c cs = some (kind, n)) :
    Spells kind (String.ofList (c :: cs.take (n - 1))) := by
  have take {n : Nat} (hn : 0 < n) : (c :: cs).take n = c :: cs.take (n - 1) := by
    obtain ⟨m, rfl⟩ := Nat.exists_eq_succ_of_ne_zero hn.ne'
    rfl
  unfold wordLexeme? at h
  dsimp only at h
  split at h
  · obtain ⟨rfl, -⟩ := Prod.mk.inj (Option.some.inj h)
    exact .of_plain rfl rfl rfl
  split at h
  · obtain ⟨rfl, -⟩ := Prod.mk.inj (Option.some.inj h)
    exact .of_plain rfl rfl rfl
  split at h
  · next k hk =>
    obtain ⟨rfl, rfl⟩ := Prod.mk.inj (Option.some.inj h)
    rw [take (numberWord?_pos hk)]
    exact spells_classifyNumberWord _
  split at h
  · next k hk =>
    have hlexeme : numberLexeme (c :: cs) k = (kind, n) := Option.some.inj h
    have hspells := spells_numberLexeme hk
    have hpos : 0 < n := by
      refine Nat.pos_of_ne_zero ?_
      rintro rfl
      have hle := le_numberLexeme (c :: cs) k
      rw [hlexeme] at hle
      obtain ⟨_, hlast, -⟩ := EndsNumeral.of_number? hk
      rw [Nat.le_zero.mp hle] at hlast
      cases hlast
    rwa [hlexeme, take hpos] at hspells
  split_ifs at h with hn
  · obtain ⟨rfl, rfl⟩ := Prod.mk.inj (Option.some.inj h)
    rw [take hn]
    exact spells_classifyWord _ _
  · exact spells_symbolLexeme? h

/-- The lexeme at the start of a text spells its kind. -/
theorem spells_lexeme? {mode : LexMode} {margin : Option Nat} {c : Char} {cs : List Char}
    {kind : TokenKind} {n : Nat} (h : lexeme? mode margin c cs = some (kind, n)) :
    Spells kind (String.ofList (c :: cs.take (n - 1))) := by
  unfold lexeme? at h
  split_ifs at h with hmark
  · obtain ⟨rfl, rfl⟩ := Prod.mk.inj (Option.some.inj h)
    obtain rfl : c = '#' := by simpa using hmark
    exact ⟨nofun, by rintro _ ⟨⟩; rfl, nofun⟩
  · obtain ⟨rfl, -⟩ := Prod.mk.inj (Option.some.inj h)
    exact .of_plain rfl rfl rfl
  · obtain ⟨rfl, -⟩ := Prod.mk.inj (Option.some.inj h)
    exact .of_plain rfl rfl rfl
  · obtain ⟨rfl, -⟩ := Prod.mk.inj (Option.some.inj h)
    exact .of_plain rfl rfl rfl
  · unfold fileLexeme at h
    dsimp only at h
    split_ifs at h with hequals
    · obtain ⟨rfl, rfl⟩ := Prod.mk.inj (Option.some.inj h)
      obtain rfl : c = '=' := by simpa using hequals
      exact ⟨nofun, by rintro _ ⟨⟩; rfl, nofun⟩
    all_goals
      obtain ⟨rfl, -⟩ := Prod.mk.inj (Option.some.inj h)
      exact .of_plain rfl rfl rfl
  · exact spells_wordLexeme? h

/-- Every token of the lexer spells its kind. -/
theorem spells_of_tokensFrom {mode : LexMode} {margin : Option Nat} {p : Position}
    {count : Nat} {cs : List Char} {ts : List Token}
    (h : tokensFrom mode margin p count cs = .ok ts) : ∀ t ∈ ts, Spells t.kind t.text := by
  induction hn : cs.length using Nat.strong_induction_on generalizing margin p count cs ts with
  | _ n ih =>
    cases cs with
    | nil =>
      rw [tokensFrom] at h
      obtain rfl := Except.ok.inj h
      simp
    | cons c cs =>
      rw [tokensFrom] at h
      split_ifs at h
      split at h
      · cases h
      · next kind k hlex =>
        dsimp only at h
        split_ifs at h
        split at h
        · next rest hrest =>
          obtain rfl := Except.ok.inj h
          have hlt : (cs.drop (k - 1)).length < n := by
            subst hn
            simp only [List.length_drop, List.length_cons]
            omega
          exact List.forall_mem_cons.mpr ⟨spells_lexeme? hlex, ih _ hlt hrest rfl⟩
        · cases h

end Lexer

/-! ## Streams -/

namespace TokenStream

variable {s : TokenStream} {t : Token}

/-- The tokens that have not been passed. -/
def rest (s : TokenStream) : List Token := s.tokens.toList.drop s.position

/-- The current token is the first one that is left. -/
theorem current?_eq_head? (s : TokenStream) : s.current? = s.rest.head? := by
  rw [rest, List.head?_drop, current?, Array.getElem?_toList]

theorem rest_advance (s : TokenStream) : s.advance.rest = s.rest.tail := by
  unfold advance rest
  split_ifs with h
  · rw [List.tail_drop]
  · rw [List.drop_eq_nil_of_le (by simpa using h)]
    rfl

/-- The current token stands in front of what is left behind it. -/
theorem rest_of_current? (h : s.current? = some t) : s.rest = t :: s.advance.rest := by
  rw [rest_advance]
  rw [current?_eq_head?] at h
  exact (List.cons_head?_tail h).symm

/-- What is taken and what is left make up what there was. -/
theorem takeWhile_append (p : Token → Bool) (s : TokenStream) :
    s.rest = (s.takeWhile p).1 ++ (s.takeWhile p).2.rest := by
  fun_induction takeWhile p s with
  | case1 s h => rfl
  | case2 s t h hp taken rest hrec ih =>
    rw [rest_of_current? h, ih, hrec]
    rfl
  | case3 s t h hp => rfl

/-- What is passed over passes the test. -/
theorem forall_takeWhile (p : Token → Bool) (s : TokenStream) :
    ∀ t ∈ (s.takeWhile p).1, p t = true := by
  fun_induction takeWhile p s with
  | case1 s h => simp
  | case2 s t h hp taken rest hrec ih =>
    rw [hrec] at ih
    exact List.forall_mem_cons.mpr ⟨hp, ih⟩
  | case3 s t h hp => simp

/-- What is left starts with a token that fails the test. -/
theorem current?_takeWhile (p : Token → Bool) (s : TokenStream) :
    ∀ t ∈ (s.takeWhile p).2.rest.head?, p t = false := by
  fun_induction takeWhile p s with
  | case1 s h =>
    rw [current?_eq_head?] at h
    simp [h]
  | case2 s t h hp taken rest hrec ih => rwa [hrec] at ih
  | case3 s t h hp =>
    rw [current?_eq_head?] at h
    simpa [h] using hp

end TokenStream

end TransportDeck
