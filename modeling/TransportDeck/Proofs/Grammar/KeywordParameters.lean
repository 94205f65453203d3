import TransportDeck.Proofs.Grammar.CellReading
import TransportDeck.Proofs.Grammar.KnownRuns
import TransportDeck.Proofs.Number.Integers
import TransportDeck.Proofs.Output.Lines
import TransportDeck.Proofs.Token.Names

/-!
# Parameters with one integer

The tokens of a keyword, perhaps particles, an equals sign and an integer are read as the parameter
that they spell, to their end.
-/

namespace TransportDeck

namespace Production

variable {ts us : List Token} {t : Token}

/-! ## Values and rounds -/

namespace Gives

/-- A value and the layout behind it. -/
theorem value_append {kind : ValueKind} {expected : String} {g : Field} {ls : List Token}
    (haccepts : accepts kind t = true) (hvalue : Field.parse? t.text kind none = some g)
    (hls : ∀ u ∈ ls, u.isLayout = true) (hus : ∀ u ∈ us.head?, u.isLayout = false) :
    Gives (value kind expected) (t :: (ls ++ us)) (g.setLayout (Layout.ofTokens? ls)) us := by
  refine current.bind ?_
  simp only [List.head?_cons, Option.filter_some, haccepts, if_true, hvalue]
  exact advance.bind ((layout_append hls hus).bind pure)

theorem value {kind : ValueKind} {expected : String} {g : Field} (haccepts : accepts kind t = true)
    (hvalue : Field.parse? t.text kind none = some g) (h : ∀ u ∈ ts.head?, u.isLayout = false) :
    Gives (value kind expected) (t :: ts) (g.setLayout none) ts := by
  have hnil : ∀ u ∈ ([] : List Token), u.isLayout = true := nofun
  exact value_append haccepts hvalue hnil h

/-- A round that goes on, and one that does not. -/
theorem loop_once {σ : Type} {round : σ → Production (Option σ)} {s s' : σ}
    (hfirst : Gives (round s) (t :: ts) (some s') ts) (hlast : Gives (round s') ts none ts) :
    Gives (Production.loop round s) (t :: ts) s' ts := loop (hfirst.bind (rounds_nothing hlast _))

end Gives

/-! ## The parts of a parameter -/

variable {name : String} {letters : List Char} {n : Int}

/-- What commas end is a piece each. -/
theorem splitWhere_separated {cs : List Char} (h : ∀ c ∈ cs, (c == ',') = false)
    (rest : List Char) : Text.splitWhere (· == ',') ((cs.flatMap fun c ↦ [c, ',']) ++ rest) =
      cs.map ([·]) ++ Text.splitWhere (· == ',') rest := by
  induction cs with
  | nil => rfl
  | cons c cs ih =>
    obtain ⟨hc, hcs⟩ := List.forall_mem_cons.mp h
    rw [List.flatMap_cons, List.append_assoc, List.cons_append, List.cons_append, List.nil_append,
      ← List.singleton_append, Text.splitWhere_append_cons (by simpa using hc) rfl, ih hcs]
    rfl

/-- A list of particles that has been written is read as its designators. -/
theorem parse?_particles (hne : letters ≠ [])
    (hletters : ∀ c ∈ letters, Vocabulary.isParticle c = true) :
    ∃ q, ParticleList.parse? (":" ++ String.ofList (Lexer.particleText letters)) = some q ∧
      q.symbols = letters.map Char.toUpper := by
  have hsymbols : (letters.map ([·])).mapM ParticleList.symbol? = some letters := by
    clear hne
    induction letters with
    | nil => rfl
    | cons c cs ih =>
      obtain ⟨hc, hcs⟩ := List.forall_mem_cons.mp hletters
      have hblank : Text.isBlank c = false :=
        Lexer.eq_false_of_isParticle hc Text.isBlank (by decide +kernel)
      have htrim : Text.trim [c] = [c] := by simp [Text.trim, Text.trimStart, Text.trimEnd, hblank]
      have hsymbol : ParticleList.symbol? [c] = some c := by
        rw [ParticleList.symbol?, htrim]
        exact if_pos hc
      rw [List.map_cons, List.mapM_cons, hsymbol, ih hcs]
      rfl
  have htext : (":" ++ String.ofList (Lexer.particleText letters)).toList =
      ':' :: Lexer.particleText letters := by
    rw [String.toList_append, String.toList_ofList, String.toList_ofList]
    rfl
  have hpieces : Text.splitWhere (· == ',') (Lexer.particleText letters) = letters.map ([·]) := by
    have hcomma : ∀ c ∈ letters, (c == ',') = false := fun c hc ↦
      Lexer.eq_false_of_isParticle (hletters c hc) (· == ',') (by decide +kernel)
    clear hsymbols htext
    rcases List.eq_nil_or_concat letters with rfl | ⟨cs, c, rfl⟩
    · exact absurd rfl hne
    · rw [List.concat_eq_append, List.forall_mem_append, List.forall_mem_singleton] at hcomma
      rw [List.concat_eq_append, Lexer.particleText_append, splitWhere_separated hcomma.1,
        List.map_append]
      exact congrArg _ (Text.splitWhere_of_forall (by simpa [Lexer.particleText] using hcomma.2))
  simp only [ParticleList.parse?, htext, hpieces, hsymbols, Option.map_some]
  exact ⟨_, rfl, rfl⟩

/-- The particles that the tokens name, and the token behind them is left. -/
theorem gives_particles? {qs : List Token} (h : AreParticles letters qs)
    (hletters : ∀ c ∈ letters, Vocabulary.isParticle c = true) (ht : isParticleToken t = false)
    (hcolon : t.kind ≠ .colon) : ∃ o, Gives particles? (qs ++ t :: ts) o (t :: ts) ∧
      o.map ParticleList.symbols = if letters.isEmpty then none
        else some (letters.map Char.toUpper) := by
  unfold AreParticles at h
  split_ifs at h with hnil
  · subst h
    refine ⟨none, Gives.currentKind.bind ?_, by rw [if_pos hnil]; rfl⟩
    simp only [List.nil_append, List.head?_cons, Option.map_some, Option.some_beq_some,
      beq_iff_eq, hcolon, if_false]
    exact .pure
  · obtain ⟨colon, ps, rfl, hkind, hps, htext⟩ := h
    obtain ⟨q, hq, hsymbols⟩ := parse?_particles (by simpa using hnil) hletters
    refine ⟨some q, Gives.currentKind.bind ?_, by rw [if_neg hnil, Option.map_some, hsymbols]⟩
    simp only [List.cons_append, List.head?_cons, Option.map_some, hkind]
    refine .currentSpan_bind fun span ↦
      Gives.advance.bind ((Gives.takeWhile isParticleToken).bind ?_)
    rw [List.takeWhile_append_of_pos hps, List.dropWhile_append_of_pos hps,
      List.takeWhile_cons_of_neg (by simp [ht]), List.dropWhile_cons_of_neg (by simp [ht]),
      List.append_nil]
    have hsource : ":" ++ textOf ps = ":" ++ String.ofList (Lexer.particleText letters) := by
      rw [← htext, String.ofList_toList]
    simp only [hsource, hq]
    exact .pure

/-- The field of a word, and that of an integer. -/
def wordField (name : String) : Field :=
  ⟨some name, some (.text name), some (.text name), .text, none, ⟨false, false⟩, false, false⟩

def integerField (n : Int) : Field :=
  ⟨some (toString n), some (.int n), some (.int n), .int, none, ⟨false, false⟩, false, false⟩

/-- What stands behind the name is no number, if no number stands behind the particles. -/
theorem isNumber_of_areParticles {qs : List Token} (h : AreParticles letters qs)
    (ht : t.kind.isNumber = false) : ∀ u ∈ (qs ++ t :: ts).head?, u.kind.isNumber = false := by
  unfold AreParticles at h
  split_ifs at h
  · subst h
    rintro _ ⟨⟩
    exact ht
  · obtain ⟨colon, ps, rfl, hcolon, -⟩ := h
    rintro _ ⟨⟩
    rw [hcolon]
    rfl

section

variable {word : Token} {g : Grammar} {l : Option Layout}

theorem gives_noMark (hword : word.kind = .keyword) :
    Gives (word? isMark) (word :: ts) none (word :: ts) := by
  have hmark : isMark word = false := by simp [isMark, hword]
  refine Gives.current.bind ?_
  simp only [List.head?_cons, Option.filter_some, hmark, Bool.false_eq_true, if_false]
  exact .pure

theorem gives_keyword (hword : word.kind = .keyword) (hname : word.text = name) :
    Gives (word? isWord) (word :: ts) (some (wordField name)) ts := by
  have hisWord : isWord word = true := by simp [isWord, hword, TokenKind.isWord]
  refine Gives.current.bind ?_
  simp only [List.head?_cons, Option.filter_some, hisWord, if_true, hname]
  exact Gives.advance.bind .pure

theorem gives_noNumber (h : ∀ t ∈ ts.head?, t.kind.isNumber = false) :
    Gives nameNumber? ts none ts := by
  refine Gives.current.bind ?_
  have hnone : ts.head?.filter (fun t ↦ t.kind.isNumber && isUnsigned t) = none :=
    Option.filter_eq_none_iff.mpr fun t ht ↦ by simp [h t ht]
  simp only [hnone]
  exact .pure

/-- A keyword, particles and the layout behind them are read as a classifier. -/
theorem gives_classifier {qs : List Token} (hg : g.allows .classifier = true)
    (hword : word.kind = .keyword) (hname : word.text = name) (hqs : AreParticles letters qs)
    (hletters : ∀ c ∈ letters, Vocabulary.isParticle c = true)
    (ht : t.kind = .equals ∨ t.kind = .space) (hlayout : Gives layout (t :: ts) l us) :
    ∃ o, Gives (classifier g) (word :: (qs ++ t :: ts)) ⟨none, wordField name, none, o, l⟩ us ∧
      o.map ParticleList.symbols = if letters.isEmpty then none
        else some (letters.map Char.toUpper) := by
  have hkind : isParticleToken t = false ∧ t.kind ≠ .colon ∧ t.kind.isNumber = false := by
    obtain ⟨kind, text, span⟩ := t
    change kind = _ ∨ kind = _ at ht
    rcases ht with rfl | rfl <;> exact ⟨rfl, nofun, rfl⟩
  obtain ⟨o, hparticles, hsymbols⟩ : ∃ o, Gives particles? (qs ++ t :: ts) o (t :: ts) ∧ _ :=
    gives_particles? hqs hletters hkind.1 hkind.2.1
  have hnumber : Gives nameNumber? (qs ++ t :: ts) none _ :=
    gives_noNumber (isNumber_of_areParticles hqs hkind.2.2)
  refine ⟨o, ?_, hsymbols⟩
  unfold classifier
  rw [hg]
  exact (gives_noMark hword).bind ((gives_keyword hword hname).bind
    (hnumber.bind (hparticles.bind (hlayout.bind .pure))))

end

theorem gives_separator? (ht : t.kind = .equals) (hsolid : ∀ u ∈ ts.head?, u.isLayout = false) :
    Gives (separator? .cell) (t :: ts) (some (Layout.ofLiteral "=" ++ Layout.empty)) ts := by
  refine Gives.currentKind.bind ?_
  simp only [List.head?_cons, Option.map_some, ht, BEq.rfl, if_true]
  exact Gives.advance.bind ((Gives.layout hsolid).bind .pure)

/-- A number at the end is the only value. -/
theorem gives_values {g : Grammar} {preferred : ValueKind} {f : Field}
    (hkind : t.kind.isNumber = true)
    (hparse : Field.parse? t.text (numberKind preferred t.text) none = some f) :
    Gives (values g preferred) [t]
      (FieldList.empty.pushField (f.setLayout none)).detachTail [] := by
  have haccepts : accepts (numberKind preferred t.text) t = true := by
    cases numberKind preferred t.text with
    | int | real => exact hkind
    | text =>
      rw [accepts, Token.isLayout_of_isNumber hkind]
      rfl
  have hvalue : Gives (value (numberKind preferred t.text) "number") [t] (f.setLayout none) [] :=
    .value haccepts hparse (by simp)
  have hfirst : Gives (item? g preferred .empty) [t]
      (some (FieldList.empty.pushField (f.setLayout none))) [] := by
    refine Gives.current.bind ?_
    obtain ⟨kind, text, span⟩ := t
    cases kind <;> first | exact hvalue.bind .pure | cases hkind
  have hlast : Gives (item? g preferred (FieldList.empty.pushField (f.setLayout none)))
      [] none [] :=
    Gives.current.bind .pure
  exact (Gives.loop_once hfirst hlast).bind .pure

theorem gives_integer (hkind : t.kind.isNumber = true) (htext : t.text = toString n)
    (hn : Number.minInt ≤ n ∧ n ≤ Number.maxInt) :
    Gives (values .cell .int) [t] (FieldList.empty.pushField (integerField n)) [] := by
  have hint : Number.readInt? t.text = some n := by
    rw [htext]
    exact Number.readInt?_toString hn
  have hnumberKind : numberKind .int t.text = .int := by simp [numberKind, hint]
  have hparse : Field.parse? t.text (numberKind .int t.text) none = some (integerField n) := by
    rw [hnumberKind, Field.parse?, Field.readValue?, hint, htext]
    rfl
  exact gives_values hkind hparse

theorem gives_nothing (g : Grammar) : Gives (parameters g) [] .empty [] := by
  unfold parameters
  split_ifs
  · refine .loop (.rounds_nothing ?_ _)
    have hstarts : Gives (startsParameter g) [] false [] := .get_bind fun c hc ↦ by
      have hnone : c.stream.current? = none := by
        rw [c.stream.current?_eq_head?]
        exact congrArg List.head? hc
      have hahead : parameterAhead g c.stream = false := by rw [parameterAhead, hnone]
      rw [hahead]
      exact .pure
    exact hstarts.bind .pure
  · exact .pure

/-- A parameter with one integer, as it has been read. -/
structure IsKeywordParameter (name : String) (letters : List Char) (n : Int) (p : Parameter) :
    Prop where
  modifier : p.classifier.modifier = none
  word : p.classifier.name.toText? = some name
  number : p.classifier.number = none
  particles : p.classifier.particles.map ParticleList.symbols =
    if letters.isEmpty then none else some (letters.map Char.toUpper)
  hasEquals : p.hasEquals = true
  values : p.values.values = [some (.int n)]

/-- The tokens of a new parameter are read as it. -/
theorem gives_parameter (h : AreKeywordParameter name letters n ts)
    (hletters : ∀ c ∈ letters, Vocabulary.isParticle c = true)
    (hn : Number.minInt ≤ n ∧ n ≤ Number.maxInt) :
    ∃ p, Gives (parameter .cell) ts p [] ∧ IsKeywordParameter name letters n p := by
  obtain ⟨word, qs, equals, number, rfl, hword, hname, hqs, hequals, hnumber, hntext⟩ :=
    h.exists_tokens
  have hlayout : ∀ u ∈ [equals, number].head?, u.isLayout = false := by
    rintro _ ⟨⟩
    exact Token.isLayout_of_kind hequals rfl
  obtain ⟨o, hclassifier, hsymbols⟩ :
      ∃ o, Gives _ (word :: (qs ++ [equals, number])) _ [equals, number] ∧ _ :=
    gives_classifier (g := .cell) (by decide) hword hname hqs hletters (.inl hequals)
      (.layout hlayout)
  have hsolid : ∀ u ∈ [number].head?, u.isLayout = false := by
    rintro _ ⟨⟩
    exact Token.isLayout_of_isNumber hnumber
  have hsign : (Layout.ofLiteral "=" ++ Layout.empty).pieces.any (·.text == "=") = true := by
    decide +kernel
  exact ⟨⟨⟨none, wordField name, none, o, none⟩, some (Layout.ofLiteral "=" ++ Layout.empty),
      FieldList.empty.pushField (integerField n)⟩,
    hclassifier.bind
      ((gives_separator? hequals hsolid).bind ((gives_integer hnumber hntext hn).bind .pure)),
    rfl, rfl, rfl, hsymbols, hsign, rfl⟩

end Production

end TransportDeck
