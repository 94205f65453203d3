import TransportDeck.Grammar.Atoms
import TransportDeck.Proofs.Token.Boundaries
import TransportDeck.Proofs.Token.Names

/-!
# Words

A word starts with a letter, and letters, points and slashes follow it.  The marks in front of a
name and the symbols of its particles have spellings of their own, and none of them holds a blank.
-/

namespace TransportDeck

open Text

namespace Lexer

/-- The characters of a word. -/
def isWordChar (c : Char) : Bool := c.isAlpha || c == '.' || c == '/'

/-- A letter, and then letters, points and slashes. -/
def IsName : List Char → Prop
  | [] => False
  | c :: cs => c.isAlpha = true ∧ ∀ d ∈ cs, isWordChar d = true

/-- A name consists of characters of words. -/
theorem IsName.forall_mem {cs : List Char} (h : IsName cs) : ∀ c ∈ cs, isWordChar c = true := by
  cases cs with
  | nil => exact h.elim
  | cons c cs =>
    rw [List.forall_mem_cons]
    exact ⟨by simp [isWordChar, h.1], h.2⟩

theorem IsName.ne_nil {cs : List Char} (h : IsName cs) : cs ≠ [] := by
  rintro rfl
  exact h

/-- Letters are a name. -/
theorem isName_of_letters {cs : List Char} (hne : cs ≠ []) (h : ∀ c ∈ cs, c.isAlpha = true) :
    IsName cs := by
  cases cs with
  | nil => exact absurd rfl hne
  | cons c cs =>
    obtain ⟨hc, hcs⟩ := List.forall_mem_cons.mp h
    exact ⟨hc, fun d hd ↦ by simp [isWordChar, hcs d hd]⟩

/-- What is taken up to the end of a word is a name. -/
theorem isName_take_word {cs : List Char} (h : word cs > 0) : IsName (cs.take (word cs)) := by
  cases cs with
  | nil => exact absurd h (lt_irrefl 0)
  | cons c cs =>
    have halpha : c.isAlpha = true := by
      by_contra hc
      have hnone : letters (c :: cs) = 0 := by simp [letters, run, hc]
      simp [word, hnone] at h
    have hletters : letters (c :: cs) = letters cs + 1 := by simp [letters, run, halpha]
    have hword : word (c :: cs) = letters cs + run isWordChar (cs.drop (letters cs)) + 1 := by
      simp [word, hletters, Nat.add_right_comm]
      rfl
    rw [hword, List.take_succ_cons, List.take_add, take_run, letters, take_run]
    refine ⟨halpha,
      List.forall_mem_append.mpr ⟨fun d hd ↦ ?_, fun d hd ↦ List.mem_takeWhile_imp hd⟩⟩
    have hd : d.isAlpha = true := List.mem_takeWhile_imp hd
    simp [isWordChar, hd]

/-- How a token that may belong to a name is spelled. -/
structure SpellsName (kind : TokenKind) (cs : List Char) : Prop where
  word : kind.isWord = true → IsName cs
  mark : kind = .asterisk ∨ kind = .plus → cs = ['*'] ∨ cs = ['+']
  symbols : kind = .particleSymbols → ∀ c ∈ cs, isParticleSymbol c = true
  comma : kind = .comma → cs = [',']

namespace SpellsName

variable {kind : TokenKind} {cs : List Char}

/-- A word is spelled by a name. -/
theorem of_word (hword : kind.isWord = true) (h : IsName cs) : SpellsName kind cs where
  word _ := h
  mark hmark := by rcases hmark with rfl | rfl <;> cases hword
  symbols hsymbols := by subst hsymbols; cases hword
  comma hcomma := by subst hcomma; cases hword

/-- Other kinds of tokens say nothing of how they are spelled. -/
theorem of_other
    (h : (kind.isWord || kind == .asterisk || kind == .plus || kind == .particleSymbols ||
      kind == .comma) = false) : SpellsName kind cs := by
  simp only [Bool.or_eq_false_iff, beq_eq_false_iff_ne] at h
  obtain ⟨⟨⟨⟨hword, hasterisk⟩, hplus⟩, hsymbols⟩, hcomma⟩ := h
  exact ⟨fun hk ↦ absurd hk (by simp [hword]), fun hk ↦ absurd hk (by simp [hasterisk, hplus]),
    fun hk ↦ absurd hk hsymbols, fun hk ↦ absurd hk hcomma⟩

end SpellsName

/-! ## Lexemes -/

variable {mode : LexMode} {margin : Option Nat} {kind : TokenKind} {c : Char}
  {cs : List Char} {n : Nat}

theorem spellsName_classifyWord (mode : LexMode) {text : String} {cs : List Char} (h : IsName cs) :
    SpellsName (classifyWord mode text) cs := by
  unfold classifyWord
  split
  · exact .of_other rfl
  · split_ifs
    · exact .of_word rfl h
    · exact .of_word rfl h
    · split
      · split_ifs <;> exact .of_word rfl h
      · split_ifs <;> exact .of_word rfl h
      · exact .of_word rfl h

/-- A mark is spelled by itself. -/
theorem spellsName_symbolLexeme? (h : symbolLexeme? mode c cs = some (kind, n)) :
    SpellsName kind ((c :: cs).take n) := by
  unfold symbolLexeme? at h
  split_ifs at h with hsymbol
  · obtain ⟨rfl, rfl⟩ := Prod.mk.inj (Option.some.inj h)
    rw [Nat.add_comm, List.take_succ_cons, take_run]
    have hc : isParticleSymbol c = true := by simp_all
    exact ⟨by
      simp [TokenKind.isWord], by
        simp, fun _ ↦ List.forall_mem_cons.mpr ⟨hc, fun _ ↦ List.mem_takeWhile_imp⟩, by simp⟩
  · obtain ⟨kind, hkind, heq⟩ := Option.map_eq_some_iff.mp h
    obtain ⟨rfl, rfl⟩ := Prod.mk.inj heq
    unfold punctuation? at hkind
    split at hkind <;> cases hkind <;>
      first | exact .of_other rfl | exact ⟨by simp [TokenKind.isWord], by simp, by simp, by simp⟩

theorem spellsName_numberLexeme (cs : List Char) (n : Nat) (ds : List Char) :
    SpellsName (numberLexeme cs n).1 ds := by
  have hplain (text : String) : SpellsName (classifyNumber text) ds := by
    unfold classifyNumber
    split
    · split_ifs <;> exact .of_other rfl
    · exact .of_other rfl
  unfold numberLexeme
  split
  · split_ifs
    · exact .of_other rfl
    · exact hplain _
  · exact hplain _

/-- A word is spelled by what is taken up to its end. -/
theorem spellsName_wordLexeme? (h : wordLexeme? mode c cs = some (kind, n)) :
    SpellsName kind ((c :: cs).take n) := by
  unfold wordLexeme? at h
  dsimp only at h
  split at h
  · obtain ⟨rfl, -⟩ := Prod.mk.inj (Option.some.inj h)
    exact .of_other rfl
  split at h
  · obtain ⟨rfl, -⟩ := Prod.mk.inj (Option.some.inj h)
    exact .of_other rfl
  split at h
  · obtain ⟨rfl, -⟩ := Prod.mk.inj (Option.some.inj h)
    unfold classifyNumberWord
    split <;> exact .of_other rfl
  split at h
  · next k hk =>
    have hshows := spellsName_numberLexeme (c :: cs) k ((c :: cs).take n)
    rwa [Option.some.inj h] at hshows
  split_ifs at h with hn
  · obtain ⟨rfl, rfl⟩ := Prod.mk.inj (Option.some.inj h)
    exact spellsName_classifyWord mode (isName_take_word hn)
  · exact spellsName_symbolLexeme? h

theorem spellsName_fileLexeme (c : Char) (cs : List Char) :
    SpellsName (fileLexeme c cs).1 ((c :: cs).take (fileLexeme c cs).2) := by
  unfold fileLexeme
  dsimp only
  split_ifs with hequals hampersand hkeyword
  · exact .of_other rfl
  · exact .of_other rfl
  · obtain ⟨hne, -, hletters⟩ := isAlpha_of_isKeyword hkeyword
    rw [String.toList_ofList] at hne hletters
    exact .of_word rfl (isName_of_letters hne hletters)
  · exact .of_other rfl

/-- The lexeme at the start of a text spells its kind, as far as names go. -/
theorem spellsName_lexeme? (h : lexeme? mode margin c cs = some (kind, n)) :
    SpellsName kind ((c :: cs).take n) := by
  unfold lexeme? at h
  split_ifs at h
  · obtain ⟨rfl, -⟩ := Prod.mk.inj (Option.some.inj h)
    exact .of_other rfl
  · obtain ⟨rfl, -⟩ := Prod.mk.inj (Option.some.inj h)
    exact .of_other rfl
  · obtain ⟨rfl, -⟩ := Prod.mk.inj (Option.some.inj h)
    exact .of_other rfl
  · obtain ⟨rfl, -⟩ := Prod.mk.inj (Option.some.inj h)
    exact .of_other rfl
  · have hfile := spellsName_fileLexeme c cs
    rwa [Option.some.inj h] at hfile
  · exact spellsName_wordLexeme? h

/-- No number is a word. -/
theorem isWord_numberLexeme (cs : List Char) (n : Nat) : (numberLexeme cs n).1.isWord = false := by
  have hplain (text : String) : (classifyNumber text).isWord = false := by
    unfold classifyNumber
    split
    · split_ifs <;> rfl
    · rfl
  unfold numberLexeme
  split
  · split_ifs
    · rfl
    · exact hplain _
  · exact hplain _

/-- A token of a word is all of the word that the text starts with. -/
theorem length_of_isWord (hmode : mode ≠ .read) (h : lexeme? mode margin c cs = some (kind, n))
    (hword : kind.isWord = true) : n = word (c :: cs) := by
  have hother {k : TokenKind} (hk : kind = k) (hnone : k.isWord = false) : False := by
    rw [hk, hnone] at hword
    cases hword
  unfold lexeme? at h
  split_ifs at h with hmark hdollar hcomment hblank
  · exact (hother (Prod.mk.inj (Option.some.inj h)).1.symm rfl).elim
  · exact (hother (Prod.mk.inj (Option.some.inj h)).1.symm rfl).elim
  · exact (hother (Prod.mk.inj (Option.some.inj h)).1.symm rfl).elim
  · exact (hother (Prod.mk.inj (Option.some.inj h)).1.symm rfl).elim
  unfold wordLexeme? at h
  dsimp only at h
  split at h
  · exact (hother (Prod.mk.inj (Option.some.inj h)).1.symm rfl).elim
  split at h
  · exact (hother (Prod.mk.inj (Option.some.inj h)).1.symm rfl).elim
  split at h
  · refine (hother (Prod.mk.inj (Option.some.inj h)).1.symm ?_).elim
    unfold classifyNumberWord
    split <;> rfl
  split at h
  · next k _ =>
    exact (hother (congrArg Prod.fst (Option.some.inj h)).symm (isWord_numberLexeme _ _)).elim
  split_ifs at h with hn
  · exact (Prod.mk.inj (Option.some.inj h)).2.symm
  · unfold symbolLexeme? at h
    split_ifs at h with hsymbol
    · exact (hother (Prod.mk.inj (Option.some.inj h)).1.symm rfl).elim
    · obtain ⟨k, hk, heq⟩ := Option.map_eq_some_iff.mp h
      refine (hother (Prod.mk.inj heq).1.symm ?_).elim
      unfold punctuation? at hk
      split at hk <;> cases hk <;> rfl

/-- A word of two characters or more. -/
theorem exists_cons_of_two_le_word {cs : List Char} (h : 2 ≤ word cs) :
    ∃ c d ds, cs = c :: d :: ds ∧ c.isAlpha = true ∧ isWordChar d = true := by
  have hname := isName_take_word (lt_of_lt_of_le (by decide) h)
  have hlength := h.trans (word_le_length cs)
  obtain _ | ⟨c, _ | ⟨d, ds⟩⟩ := cs
  · cases hlength
  · exact absurd hlength (Nat.not_succ_le_self 1)
  · obtain ⟨n, hn⟩ := Nat.exists_eq_add_of_le h
    rw [hn, Nat.add_comm, List.take_succ_cons, List.take_succ_cons] at hname
    exact ⟨c, d, ds, rfl, hname.1, hname.2 d List.mem_cons_self⟩

end Lexer

/-! ## Tokens -/

/-- The token is spelled as a part of a name. -/
def Token.SpellsName (t : Token) : Prop := Lexer.SpellsName t.kind t.text.toList

namespace Lexer

/-- All tokens of a cut spell names where they have to. -/
theorem Cuts.spellsName {mode : LexMode} {margin : Option Nat} {p : Position} {cs left : List Char}
    {ts : List Token} (h : Cuts mode margin p cs ts left) : ∀ t ∈ ts, t.SpellsName := by
  induction h with
  | done => simp
  | token lexeme _ _ ih =>
    refine List.forall_mem_cons.mpr ⟨?_, ih⟩
    rw [Token.SpellsName, String.toList_ofList]
    exact spellsName_lexeme? lexeme

/-- All tokens of the lexer spell names where they have to. -/
theorem spellsName_of_tokenize {mode : LexMode} {text : String} {ts : List Token}
    (h : tokenize mode text = .ok ts) : ∀ t ∈ ts, t.SpellsName :=
  (tokenize_eq_ok_iff.mp h).1.spellsName

/-- There are no blanks in a word. -/
theorem isBlank_of_isWordChar {c : Char} (h : isWordChar c = true) : isBlank c = false := by
  simp only [isWordChar, Bool.or_eq_true, beq_iff_eq] at h
  rcases h with (halpha | rfl) | rfl
  · exact eq_false_of_isAlpha halpha isBlank (by decide)
  · decide
  · decide

theorem isBlank_of_isParticleSymbol {c : Char} (h : isParticleSymbol c = true) :
    isBlank c = false := by
  have hall : ("|+-!<>/%^_~@*?".toList.all fun d ↦ !isBlank d) = true := by decide
  simpa using List.all_eq_true.mp hall c (List.contains_iff_mem.mp h)

/-- What stands in a list of particles holds no blank. -/
theorem isBlank_of_isParticleToken {t : Token} (h : t.SpellsName)
    (hparticle : Production.isParticleToken t = true) : ∀ c ∈ t.text.toList, isBlank c = false := by
  have hword (hkind : t.kind.isWord = true) : ∀ c ∈ t.text.toList, isBlank c = false :=
    fun c hc ↦ isBlank_of_isWordChar ((h.word hkind).forall_mem c hc)
  unfold Production.isParticleToken at hparticle
  split at hparticle
  · next hkind => exact fun c hc ↦ isBlank_of_isParticleSymbol (h.symbols hkind c hc)
  · next hkind =>
    rw [h.comma hkind, List.forall_mem_singleton]
    decide
  all_goals first
    | (next hkind => exact hword (by rw [hkind]; rfl))
    | cases hparticle

end Lexer

end TransportDeck
