import TransportDeck.Proofs.Token.Relaying

/-!
# The tokens of a list of particles

Each designator between commas is a token of its own, for none of the longer lexemes goes on over a
comma.  All of them but `#` are tokens that a list of particles is read from.
-/

namespace TransportDeck

open Text

namespace Lexer

open Production

variable {c : Char} {cs ps rest : List Char} {p : Position} {ts us : List Token}

/-! ## Single characters -/

/-- The token of one character, which lists of particles take unless it is the mark of a
complement. -/
structure IsSymbol (c : Char) (t : Token) : Prop where
  text_eq : t.text = String.ofList [c]
  isParticleToken_eq : isParticleToken t = (c != '#')
  kind_of_complement : c = '#' → t.kind = .complement

theorem lexeme?_particle (hc : Vocabulary.isParticle c = true) (hrest : Closes rest) :
    ∃ kind, lexeme? .data none c rest = some (kind, 1) ∧
      ∀ span, IsSymbol c ⟨kind, String.ofList [c], span⟩ := by
  by_cases hmark : c = '#'
  · subst hmark
    exact ⟨.complement, rfl, fun span ↦ ⟨rfl, rfl, fun _ ↦ rfl⟩⟩
  · have not_of := eq_false_of_isParticle hc
    have hall : designators.all (fun c ↦ c == '#' || !Vocabulary.isParticle c ||
        (wordLexeme? .data c []).any fun (kind, n) ↦
          n == 1 && isParticleToken ⟨kind, String.ofList [c], .point .start⟩) = true := by
      decide +kernel
    have hword := List.all_eq_true.mp hall c (mem_designators hc)
    rw [beq_false_of_ne hmark, hc, Bool.not_true, Bool.or_false, Bool.false_or,
      Option.any_eq_true] at hword
    obtain ⟨⟨kind, n⟩, hlex, hkind⟩ := hword
    rw [Bool.and_eq_true, beq_iff_eq] at hkind
    obtain ⟨rfl, hkind⟩ := hkind
    have hcomplement : (c == '#') = false := beq_false_of_ne hmark
    have hlexeme : lexeme? .data none c rest = wordLexeme? .data c rest := by
      rw [lexeme?, hcomplement, not_of (· == '$') (by decide +kernel), startsComment,
        not_of isAsciiBlank (by decide +kernel)]
      rfl
    refine ⟨kind, ?_, fun span ↦ ⟨rfl, ?_, fun h ↦ absurd h hmark⟩⟩
    · rw [hlexeme, ← List.nil_append rest, wordLexeme?_of_closes hrest, hlex]
    · rw [bne, hcomplement]
      exact hkind

/-! ## Lists -/

theorem marginAfter_particle (hc : Vocabulary.isParticle c = true) :
    marginAfter none [c] = none := by
  refine marginAfter_none fun hmem ↦ ?_
  obtain rfl := List.mem_singleton.mp hmem
  cases hc

/-- In front of `rest` each character is a token of its own. -/
def AreSymbols (cs rest : List Char) : Prop :=
  ∀ p, ∃ ts, Cuts .data none p (cs ++ rest) ts rest ∧ List.Forall₂ IsSymbol cs ts

namespace AreSymbols

theorem particle (hc : Vocabulary.isParticle c = true) (h : AreSymbols cs rest)
    (hcloses : Closes (cs ++ rest)) : AreSymbols (c :: cs) rest := fun p ↦ by
  obtain ⟨kind, hlex, hkind⟩ : ∃ kind, lexeme? .data none c (cs ++ rest) = _ ∧ _ :=
    lexeme?_particle hc hcloses
  obtain ⟨ts, hts, hsymbols⟩ := h (p.advance [c])
  rw [← marginAfter_particle hc] at hts
  exact ⟨_, @Cuts.cons _ _ _ _ _ _ _ _ [] hlex hts, .cons (hkind _) hsymbols⟩

theorem comma (h : AreSymbols cs rest) : AreSymbols (',' :: cs) rest := fun p ↦ by
  obtain ⟨ts, hts, hsymbols⟩ := h (p.advance [','])
  have hlex : lexeme? .data none ',' (cs ++ rest) = some (.comma, 1) := rfl
  exact ⟨_, @Cuts.cons _ _ _ _ _ _ _ _ [] hlex hts,
    .cons ⟨rfl, rfl, fun h ↦ absurd h (by decide)⟩ hsymbols⟩

end AreSymbols

theorem mem_particleText {d : Char} (hd : d ≠ ',') : d ∈ particleText ps ↔ d ∈ ps := by
  cases ps with
  | nil => rfl
  | cons c ps => simp [particleText, hd]

theorem closes_moreParticles (hrest : Closes rest) :
    Closes ((ps.flatMap fun c ↦ [',', c]) ++ rest) := by
  cases ps with
  | nil => exact hrest
  | cons c ps => exact closes_comma _

theorem areSymbols_moreParticles (hps : ∀ c ∈ ps, Vocabulary.isParticle c = true)
    (hrest : Closes rest) : AreSymbols (ps.flatMap fun c ↦ [',', c]) rest := by
  induction ps with
  | nil => exact fun p ↦ ⟨[], .done, .nil⟩
  | cons c ps ih =>
    obtain ⟨hc, hps⟩ := List.forall_mem_cons.mp hps
    exact ((ih hps).particle hc (closes_moreParticles hrest)).comma

/-- In front of a blank or the end of the text each character of a list of particles is a token of
its own. -/
theorem areSymbols_particleText (hps : ∀ c ∈ ps, Vocabulary.isParticle c = true)
    (hrest : Closes rest) : AreSymbols (particleText ps) rest := by
  cases ps with
  | nil => exact fun p ↦ ⟨[], .done, .nil⟩
  | cons c ps =>
    obtain ⟨hc, hps⟩ := List.forall_mem_cons.mp hps
    exact (areSymbols_moreParticles hps hrest).particle hc (closes_moreParticles hrest)

/-! ## What lists of particles take -/

theorem isShort_of_symbols (h : List.Forall₂ IsSymbol cs ts) : ∀ t ∈ ts, IsShort t := by
  induction h with
  | nil => simp
  | @cons c t _ _ ht _ ih =>
    have hsize := byteSize_le_four [c]
    have hlimit : Limits.tokenBytes = 4096 := rfl
    rw [List.length_singleton] at hsize
    refine List.forall_mem_cons.mpr ⟨.inr ?_, ih⟩
    rw [ht.text_eq, String.toList_ofList, hlimit]
    omega

theorem toList_textOf_of_symbols (h : List.Forall₂ IsSymbol cs ts) : (textOf ts).toList = cs := by
  induction h with
  | nil => rfl
  | cons ht _ ih =>
    rw [textOf_cons, ht.text_eq, String.toList_append, String.toList_ofList, ih]
    rfl

theorem isParticleToken_of_symbols (h : List.Forall₂ IsSymbol cs ts) (hmark : '#' ∉ cs) :
    ∀ t ∈ ts, isParticleToken t = true := by
  induction h with
  | nil => simp
  | cons ht _ ih =>
    rw [List.mem_cons, not_or] at hmark
    refine List.forall_mem_cons.mpr ⟨?_, ih hmark.2⟩
    rw [ht.isParticleToken_eq, bne_iff_ne]
    exact Ne.symm hmark.1

theorem takeWhile_of_symbols (h : List.Forall₂ IsSymbol cs ts) :
    List.Forall₂ IsSymbol (cs.takeWhile (· != '#')) (ts.takeWhile isParticleToken) := by
  induction h with
  | nil => exact .nil
  | cons ht _ ih =>
    rw [List.takeWhile_cons, List.takeWhile_cons, ht.isParticleToken_eq]
    split_ifs
    · exact .cons ht ih
    · exact .nil

/-! ## Tokens are determined -/

theorem Cuts.unique {mode : LexMode} {margin : Option Nat} {p : Position}
    (h : Cuts mode margin p cs ts []) (h' : Cuts mode margin p cs us []) : ts = us := by
  induction ts generalizing margin p cs us with
  | nil =>
    cases h
    cases us with
    | nil => rfl
    | cons u us =>
      obtain ⟨_, _, _, _, hnil, -⟩ := h'.exists_of_cons
      cases hnil
  | cons t ts ih =>
    obtain ⟨kind, c, ds, cs', rfl, rfl, hlex, hts⟩ := h.exists_of_cons
    cases us with
    | nil => cases h'
    | cons u us =>
      obtain ⟨kind', c', ds', cs'', heq, rfl, hlex', hus⟩ := h'.exists_of_cons
      obtain ⟨rfl, htail⟩ := List.cons.inj heq
      have htail : ds ++ cs' = ds' ++ cs'' := htail
      rw [htail, hlex'] at hlex
      obtain ⟨rfl, hlength⟩ := Prod.mk.inj (Option.some.inj hlex)
      obtain ⟨rfl, rfl⟩ := List.append_inj htail (Nat.succ.inj hlength).symm
      rw [ih hts hus]

end Lexer

end TransportDeck
