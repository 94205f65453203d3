import TransportDeck.Proofs.Deck.Comments
import TransportDeck.Proofs.Grammar.KeywordParameters
import TransportDeck.Proofs.Record.Marks
import TransportDeck.Proofs.Token.ParticleLists

/-!
# Records with lists of particles

A record that gives the particles of a list their importance is read with these particles, whatever
they are called and in whatever order, as long as the mark of a complement is not among them.  The
lexer keeps that for itself.
-/

namespace TransportDeck

open Text

/-! ## Keys -/

namespace ParticleList

theorem insertSorted_eq (c : Char) (cs : List Char) :
    insertSorted c cs = cs.orderedInsert (· ≤ ·) c := by
  induction cs with
  | nil => rfl
  | cons d ds ih => rw [insertSorted, List.orderedInsert_cons, ih]

theorem sorted_eq (cs : List Char) : sorted cs = cs.insertionSort (· ≤ ·) := by
  induction cs with
  | nil => rfl
  | cons c cs ih =>
    change insertSorted c (sorted cs) = _
    rw [ih, insertSorted_eq, List.insertionSort_cons]

/-- The order in which the particles stand does not matter for the key. -/
theorem key_eq_of_perm {p q : ParticleList} (h : p.symbols.Perm q.symbols) : p.key = q.key := by
  have hsorted : sorted (p.symbols.map Char.toLower) = sorted (q.symbols.map Char.toLower) := by
    rw [sorted_eq, sorted_eq]
    have hperm := (List.perm_insertionSort (· ≤ ·) _).trans
      ((h.map Char.toLower).trans (List.perm_insertionSort (· ≤ ·) _).symm)
    exact hperm.eq_of_pairwise' (List.pairwise_insertionSort (· ≤ ·) _)
      (List.pairwise_insertionSort (· ≤ ·) _)
  rw [key, key, hsorted]

end ParticleList

/-! ## Tokens -/

/-- The text that gives particles the importance one. -/
def importanceText (particles : List Char) : String :=
  "imp:" ++ ParticleList.joined particles ++ " 1"

/-- The tokens of such a text. -/
structure AreImportance (particles : List Char) (ts : List Token) : Prop where
  exists_tokens : ∃ word colon qs space one, ts = word :: colon :: (qs ++ [space, one]) ∧
    word.kind = .keyword ∧ word.text = "imp" ∧ colon.kind = .colon ∧
    List.Forall₂ Lexer.IsSymbol (Lexer.particleText particles) qs ∧
    space.kind = .space ∧ one.kind.isNumber = true ∧ one.text = "1"

namespace Lexer

variable {ps : List Char} {ts : List Token}

theorem toList_joined (ps : List Char) : (ParticleList.joined ps).toList = particleText ps := by
  induction ps with
  | nil => rfl
  | cons c ps ih =>
    cases ps with
    | nil => simp [ParticleList.joined, particleText]
    | cons d ps =>
      rw [ParticleList.joined, List.map_cons, List.map_cons, String.intercalate_cons_cons,
        String.toList_append, String.toList_append, ← List.map_cons]
      change c.toString.toList ++ ",".toList ++ (ParticleList.joined (d :: ps)).toList = _
      rw [ih]
      simp [particleText]

theorem toList_importanceText (ps : List Char) :
    (importanceText ps).toList = ['i', 'm', 'p'] ++ ':' :: (particleText ps ++ [' ', '1']) := by
  rw [importanceText, String.toList_append, String.toList_append, toList_joined]
  simp

theorem exists_cuts_importance (hps : ∀ c ∈ ps, Vocabulary.isParticle c = true) :
    ∃ ts, Cuts .data (some 0) .start (importanceText ps).toList ts [] ∧ AreImportance ps ts ∧
      (∀ t ∈ ts, IsShort t) ∧ ts.length = (particleText ps).length + 4 := by
  let p := (Position.start.advance ['i', 'm', 'p']).advance [':']
  obtain ⟨qs, hqs, hsymbols⟩ :=
    areSymbols_particleText hps (closes_of_isBlank (c := ' ') rfl ['1']) p
  have htext := toList_textOf_of_symbols hsymbols
  have hmargin : marginAfter none (textOf qs).toList = none := by
    refine marginAfter_none fun hmem ↦ ?_
    rw [htext, mem_particleText (by decide)] at hmem
    cases hps _ hmem
  obtain ⟨space, one, hend, hspace, hone, honeText, hspaceShort, honeShort⟩ :=
    exists_cuts_one none (p.advance (textOf qs).toList)
  rw [← hmargin] at hend
  have hparticles := hqs.append hend
  have hcolon : Cuts .data none (Position.start.advance ['i', 'm', 'p']) ([':'] ++ _) _ [] :=
    @Cuts.cons _ _ _ _ _ _ .colon ':' [] rfl hparticles
  have hlex : lexeme? .data (some 0) 'i' (['m', 'p'] ++ ':' :: (particleText ps ++ [' ', '1'])) =
      some (.keyword, 3) := by
    have hletters : ['i', 'm', 'p'].all Char.isAlpha = true := by decide
    rw [lexeme?_word (by decide) (List.all_eq_true.mp hletters) (by decide)]
    decide +kernel
  have hword : Cuts .data (some 0) .start (['i', 'm', 'p'] ++ _) _ [] := .cons hlex hcolon
  rw [← toList_importanceText] at hword
  refine ⟨_, hword,
    ⟨_, _, qs, space, one, rfl, rfl, rfl, rfl, hsymbols, hspace, hone, honeText⟩, ?_, ?_⟩
  · simp only [List.mem_cons, List.mem_append, List.not_mem_nil, or_false]
    rintro t (rfl | rfl | ht | rfl | rfl)
    · exact .inr (by rw [String.toList_ofList]; decide)
    · exact .inr (by rw [String.toList_ofList]; decide)
    · exact isShort_of_symbols hsymbols t ht
    · exact hspaceShort
    · exact honeShort
  · simp [hsymbols.length_eq]

end Lexer

/-! ## Reading -/

/-- The record gives the particles one value, which is one. -/
structure DataRecord.GivesImportance (d : DataRecord) (particles : List Char) : Prop where
  word : d.classifier.word = "imp"
  modifier : d.classifier.modifier = none
  number : d.classifier.number = none
  symbols : d.classifier.particles.map ParticleList.symbols = some (particles.map Char.toUpper)
  body : ∃ l, d.body = .values l ∧ l.values = [some (.real 1)]
  parameters : d.parameters = .empty

namespace Production

variable {ps : List Char} {ts : List Token}

/-- Without the mark of a complement the tokens are those of a list of particles. -/
theorem areParticles_of_symbols {colon : Token} {qs : List Token} (hne : ps ≠ [])
    (hcolon : colon.kind = .colon)
    (hsymbols : List.Forall₂ Lexer.IsSymbol (Lexer.particleText ps) qs) (hmark : '#' ∉ ps) :
    AreParticles ps (colon :: qs) := by
  rw [AreParticles, if_neg (by simpa using hne)]
  have hfree : '#' ∉ Lexer.particleText ps := by rwa [Lexer.mem_particleText (by decide)]
  exact ⟨colon, qs, rfl, hcolon, Lexer.isParticleToken_of_symbols hsymbols hfree,
    Lexer.toList_textOf_of_symbols hsymbols⟩

/-- The field of the importance. -/
def oneField : Field :=
  ⟨some "1", some (.real 1), some (.real 1), .real, none, ⟨false, false⟩, false, false⟩

theorem gives_importance (h : AreImportance ps ts) (hps : ∀ c ∈ ps, Vocabulary.isParticle c = true)
    (hne : ps ≠ []) (hmark : '#' ∉ ps) :
    ∃ d, Gives (data .data) ts d [] ∧ d.GivesImportance ps := by
  obtain ⟨word, colon, qs, space, one, rfl, hword, hname, hcolon, hsymbols, hspace, hone, htext⟩ :=
    h.exists_tokens
  have hareparticles : AreParticles ps (colon :: qs) :=
    areParticles_of_symbols hne hcolon hsymbols hmark
  have hsolid : one.isLayout = false := Token.isLayout_of_isNumber hone
  have hleading : Gives layout (word :: (colon :: qs ++ [space, one])) none _ :=
    .layout (by rintro _ ⟨⟩; exact Token.isLayout_of_kind hword rfl)
  have hlayout : Gives layout ([space] ++ [one]) (some (Layout.empty.pushToken space)) [one] :=
    .layout_append
      (List.forall_mem_singleton.mpr (by simp [Token.isLayout, hspace, TokenKind.isLayout]))
        (by rintro _ ⟨⟩; exact hsolid)
  obtain ⟨o, hclassifier, ho⟩ :
      ∃ o, Gives (classifier .data) (word :: (colon :: qs ++ [space, one])) _ [one] ∧ _ :=
    gives_classifier (g := .data) (by decide) hword hname hareparticles hps (.inr hspace) hlayout
  have hkeyword : Gives (keyword? .data) [one] none [one] := by
    refine Gives.currentKind.bind (.get_bind fun c hc ↦ ?_)
    have hkind : (one.kind == .keyword) = false := by
      rw [beq_eq_false_iff_ne]
      rintro hkind
      rw [hkind] at hone
      cases hone
    simp only [List.head?_cons, Option.map_some, Option.some_beq_some, hkind, Bool.false_and,
      Bool.false_eq_true, if_false]
    exact .pure
  have hparse : Field.parse? one.text (numberKind .real one.text) none = some oneField := by
    rw [htext]
    rfl
  have hbody :
    Gives (body .data ⟨none, wordField "imp", none, o, some (Layout.empty.pushToken space)⟩) [one]
      (.values (FieldList.empty.pushField oneField)) [] := by
    refine Gives.current.bind ?_
    have himp : sameWord "imp" "m" = false := by decide +kernel
    have hword :
      sameWord (Classifier.word
        ⟨none, wordField "imp", none, o, some (Layout.empty.pushToken space)⟩) "m" =
      false := himp
    have hitems : Grammar.data.allows .dataItems = true := by decide
    rw [hword, Bool.false_and, Bool.false_and, if_neg Bool.false_ne_true, if_pos hitems]
    exact (gives_values hone hparse).bind .pure
  refine ⟨_, hleading.bind (hclassifier.bind (hkeyword.bind (hbody.bind ((gives_nothing .data).bind
    (Gives.finish.bind .pure))))), rfl, rfl, rfl, ?_, ⟨_, rfl, rfl⟩, rfl⟩
  rw [ho, if_neg (by simpa using hne)]

/-- A comma with nothing behind it ends no list of particles. -/
theorem parse?_separated {cs : List Char} (hcs : ∀ c ∈ cs, (c == ',') = false) {text : String}
    (htext : text.toList = cs.flatMap fun c ↦ [c, ',']) :
    ParticleList.parse? (":" ++ text) = none := by
  have htoList : (":" ++ text).toList = ':' :: cs.flatMap fun c ↦ [c, ','] := by
    rw [String.toList_append, htext]
    rfl
  have hpieces := splitWhere_separated hcs []
  rw [List.append_nil] at hpieces
  have hsymbols :
      (cs.map ([·]) ++ Text.splitWhere (· == ',') []).mapM ParticleList.symbol? = none := by
    rw [List.mapM_append]
    cases (cs.map ([·])).mapM ParticleList.symbol? <;> rfl
  simp only [ParticleList.parse?, htoList, hpieces, hsymbols, Option.map_none]

/-- The mark of a complement breaks the list off behind a comma or the colon. -/
theorem fails_particles? {colon space one : Token} {qs : List Token} (hcolon : colon.kind = .colon)
    (hsymbols : List.Forall₂ Lexer.IsSymbol (Lexer.particleText ps) qs)
    (hspace : space.kind = .space) (hps : ∀ c ∈ ps, Vocabulary.isParticle c = true)
    (hmark : '#' ∈ ps) : Fails particles? (colon :: (qs ++ [space, one])) := by
  obtain ⟨front, back, rfl, hfront⟩ := List.eq_append_cons_of_mem hmark
  have hcomma : ∀ c ∈ front, (c == ',') = false := fun c hc ↦
    Lexer.eq_false_of_isParticle (hps c (List.mem_append_left _ hc)) (· == ',') (by decide +kernel)
  have hcut : (Lexer.particleText (front ++ '#' :: back)).takeWhile (· != '#') =
      front.flatMap fun c ↦ [c, ','] := by
    have hfree : ∀ d ∈ front.flatMap fun c ↦ [c, ','], (d != '#') = true := fun d hd ↦ by
      obtain ⟨c, hc, hd⟩ := List.mem_flatMap.mp hd
      rw [bne_iff_ne]
      rintro rfl
      rcases List.mem_cons.mp hd with rfl | hd
      · exact hfront hc
      · cases List.mem_singleton.mp hd
    rw [Lexer.particleText_append, List.takeWhile_append_of_pos hfree, Lexer.particleText,
      List.takeWhile_cons_of_neg (by simp), List.append_nil]
  have htext : (textOf (qs.takeWhile isParticleToken)).toList = front.flatMap fun c ↦ [c, ','] := by
    rw [Lexer.toList_textOf_of_symbols (Lexer.takeWhile_of_symbols hsymbols), hcut]
  have htaken : (qs ++ [space, one]).takeWhile isParticleToken = qs.takeWhile isParticleToken := by
    have hstop : isParticleToken space = false := by simp [isParticleToken, hspace]
    rw [List.takeWhile_append, List.takeWhile_cons_of_neg (by simp [hstop]), List.append_nil]
    split_ifs with hall
    · exact ((List.takeWhile_prefix _).eq_of_length hall).symm
    · rfl
  refine .bind_of_gives .currentKind ?_
  simp only [List.head?_cons, Option.map_some, hcolon]
  refine .currentSpan_bind fun span ↦
    .bind_of_gives .advance (.bind_of_gives (.takeWhile isParticleToken) ?_)
  simp only [htaken, parse?_separated hcomma htext]
  exact .throw _

theorem fails_importance (h : AreImportance ps ts) (hps : ∀ c ∈ ps, Vocabulary.isParticle c = true)
    (hmark : '#' ∈ ps) : Fails (data .data) ts := by
  obtain ⟨word, colon, qs, space, one, rfl, hword, hname, hcolon, hsymbols, hspace, hone, htext⟩ :=
    h.exists_tokens
  have hleading : Gives layout (word :: colon :: (qs ++ [space, one])) none _ :=
    .layout (by rintro _ ⟨⟩; exact Token.isLayout_of_kind hword rfl)
  have hnumber : Gives nameNumber? (colon :: (qs ++ [space, one])) none _ :=
    gives_noNumber (by rintro _ ⟨⟩; rw [hcolon]; rfl)
  refine .bind_of_gives hleading (.bind ?_)
  have hallows : Grammar.data.allows .classifier = true := by decide
  unfold classifier
  rw [hallows]
  exact .bind_of_gives (gives_noMark hword) (.bind_of_gives (gives_keyword hword hname)
    (.bind_of_gives hnumber (fails_particles? hcolon hsymbols hspace hps hmark).bind))

end Production

/-! ## Cards -/

namespace Card

variable {card other : Card} {ps qs : List Char} {d d' : DataRecord}

theorem length_particleText (hne : ps ≠ []) :
    (Lexer.particleText ps).length + 1 = 2 * ps.length := by
  obtain ⟨c, cs, rfl⟩ := List.exists_cons_of_ne_nil hne
  simp [Lexer.particleText, List.length_flatMap]
  omega

theorem isRead_of_importance (hlines : card.lines = [importanceText ps]) : card.isRead = false := by
  have hline : (importanceText ps).toList = 'i' :: _ := Lexer.toList_importanceText ps
  have hblank : isBlank 'i' = false := by decide
  have hcode : Line.isComment (importanceText ps) = false := by simp [Line.isComment, hline, hblank]
  have hopens : opensRead (importanceText ps) = false := by
    have hsame (w : List Char) : sameWord (String.ofList ('i' :: w)) "read" = false := by
      rw [sameWord, String.toList_ofList]
      rfl
    rw [opensRead, head?_words, hline, List.dropWhile_cons_of_neg (by simp [hblank]),
      if_neg (List.cons_ne_nil _ _), List.takeWhile_cons_of_pos (by simp [hblank])]
    exact hsame _
  rw [isRead_eq, codeLines, hlines, List.filter_cons_of_pos (by simp [hcode])]
  exact hopens

/-- Such a card is never kept verbatim, for its name has a grammar of its own. -/
theorem parse_eq_of_importance (hblock : card.block = .data)
    (hlines : card.lines = [importanceText ps]) :
    card.parse = Grammar.data.parse (importanceText ps) := by
  have htext : card.text = importanceText ps := by rw [text, hlines, String.intercalate_singleton]
  have hofCard : Grammar.ofCard card = .data := by
    rw [Grammar.ofCard, isRead_of_importance hlines, hblock]
    rfl
  have hname : VerbatimRecord.nameOf? (importanceText ps) = some "imp" := by
    rw [VerbatimRecord.nameOf?_of_isAlpha (by decide) (Lexer.toList_importanceText ps)]
    rfl
  have hmodeled : (!Vocabulary.isModeledData "imp") = false := by decide +kernel
  have hkeep (errors : List SyntaxError) :
      canKeepVerbatim .data (importanceText ps) errors = false := by
    rw [canKeepVerbatim, hname]
    dsimp only
    rw [hmodeled, Bool.and_false]
  rw [Card.parse, hofCard, htext]
  cases Grammar.data.parse (importanceText ps) with
  | ok r => rfl
  | error errors => exact if_neg (by simp [hkeep errors])

/-- The card is a data record unless the list holds the mark of a complement or is too long. -/
theorem parse_importance_cases (hblock : card.block = .data)
    (hlines : card.lines = [importanceText ps]) (hne : ps ≠ [])
    (hps : ∀ c ∈ ps, Vocabulary.isParticle c = true) :
    if '#' ∉ ps ∧ 2 * ps.length + 3 ≤ Limits.tokens then ∃ d, card.parse = .ok (.data d) ∧
      d.GivesImportance ps
    else ∃ errors, card.parse = .error errors := by
  obtain ⟨ts, hcuts, hts, hshort, hlength⟩ := Lexer.exists_cuts_importance hps
  have hcount : ts.length = 2 * ps.length + 3 := by
    have := length_particleText hne
    omega
  have hrest : (Cursor.of (.of ts)).rest = ts := rfl
  have hmode : Grammar.data.mode = .data := rfl
  have hsolid : (Cursor.of (.of ts)).stream.onlyLayoutLeft = false := by
    obtain ⟨word, colon, qs, space, one, rfl, hword, -⟩ := hts.exists_tokens
    exact TokenStream.onlyLayoutLeft_of ⟨word, List.mem_cons_self, Token.isLayout_of_kind hword rfl⟩
  rw [parse_eq_of_importance hblock hlines, Grammar.parse, hmode]
  split_ifs with h
  · have htokens : tokenize .data (importanceText ps) = .ok ts :=
      Lexer.tokenize_eq_ok_iff.mpr ⟨hcuts, hshort, by omega⟩
    obtain ⟨d, hgives, hd⟩ := Production.gives_importance hts hps hne h.1
    have hrecord : Production.Gives (Production.record .data) ts (.data d) [] := hgives.bind .pure
    obtain ⟨c', hrun, -, herrors⟩ := hrecord _ hrest
    rw [htokens]
    exact ⟨d, Cursor.parse_eq_ok_iff.mpr ⟨hsolid, c', hrun, herrors⟩, hd⟩
  · cases htokens : tokenize .data (importanceText ps) with
    | error e => exact ⟨_, rfl⟩
    | ok us =>
      obtain ⟨hus, -, hfits⟩ := Lexer.tokenize_eq_ok_iff.mp htokens
      obtain rfl := Lexer.Cuts.unique hcuts hus
      have hmark : '#' ∈ ps := by
        by_contra hmark
        exact h ⟨hmark, by omega⟩
      have hfails : Production.Fails (Production.record .data) ts :=
        (Production.fails_importance hts hps hmark).bind
      obtain ⟨e, c', hrun⟩ := hfails _ hrest
      refine ⟨(c'.report e).errors, ?_⟩
      change (Cursor.of (.of ts)).parse .data = _
      rw [Cursor.parse, hsolid, if_neg Bool.false_ne_true, hrun]

theorem givesImportance_of_parse (hblock : card.block = .data)
    (hlines : card.lines = [importanceText ps]) (hne : ps ≠ [])
    (hps : ∀ c ∈ ps, Vocabulary.isParticle c = true) (h : card.parse = .ok (.data d)) :
    d.GivesImportance ps := by
  have hcases := parse_importance_cases hblock hlines hne hps
  split_ifs at hcases
  · obtain ⟨d', hd', himportance⟩ := hcases
    obtain rfl : d = d' := Record.data.inj (Except.ok.inj (h.symm.trans hd'))
    exact himportance
  · obtain ⟨errors, herrors⟩ := hcases
    cases h.symm.trans herrors

/-- Every list of particles is understood that holds no mark of a complement and is not too long,
and the key does not depend on the order of the particles or on their letter case. -/
theorem parse_importance (hblock : card.block = .data) (hlines : card.lines = [importanceText ps])
    (hne : ps ≠ []) (hps : ∀ c ∈ ps, Vocabulary.isParticle c = true) :
    ((∃ d, card.parse = .ok (.data d) ∧ d.GivesImportance ps) ↔
      '#' ∉ ps ∧ 2 * ps.length + 3 ≤ Limits.tokens) ∧ ∀ (other : Card) (qs : List Char)
        (d d' : DataRecord), other.block = .data → other.lines = [importanceText qs] →
        (qs.map Char.toUpper).Perm (ps.map Char.toUpper) → card.parse = .ok (.data d) →
        other.parse = .ok (.data d') →
          d'.classifier.key = d.classifier.key := by
  constructor
  · have hcases := parse_importance_cases hblock hlines hne hps
    split_ifs at hcases with h
    · exact iff_of_true hcases h
    · obtain ⟨errors, herrors⟩ := hcases
      refine iff_of_false ?_ h
      rintro ⟨d, hd, -⟩
      cases herrors.symm.trans hd
  · intro other qs d d' hblock' hlines' hperm hd hd'
    have hne' : qs ≠ [] := by
      rintro rfl
      exact hne (List.map_eq_nil_iff.mp hperm.nil_eq.symm)
    have hqs : ∀ c ∈ qs, Vocabulary.isParticle c = true := fun c hc ↦ by
      obtain ⟨e, he, heq⟩ := List.mem_map.mp (hperm.subset (List.mem_map_of_mem hc))
      have := hps e he
      rwa [Vocabulary.isParticle, Vocabulary.particleName?, heq] at this
    have himportance := givesImportance_of_parse hblock hlines hne hps hd
    have himportance' := givesImportance_of_parse hblock' hlines' hne' hqs hd'
    obtain ⟨p, hp, hsymbols⟩ := Option.map_eq_some_iff.mp himportance.symbols
    obtain ⟨q, hq, hsymbols'⟩ := Option.map_eq_some_iff.mp himportance'.symbols
    have hkeys : q.key = p.key :=
      ParticleList.key_eq_of_perm (by rw [hsymbols, hsymbols']; exact hperm)
    rw [Classifier.key, Classifier.key, himportance.word, himportance'.word,
      Classifier.numberValue?, Classifier.numberValue?, himportance.number,
      himportance'.number, hp, hq]
    simp only [hkeys]

/-- Letters in any case and symbols that are operators elsewhere. -/
theorem parse_importance_of_symbols :
    ∃ (card other : Card) (d d' : DataRecord), card.lines = ["imp:n,|,P,+,e,z 1"] ∧
      card.parse = .ok (.data d) ∧ d.GivesImportance ['n', '|', 'P', '+', 'e', 'z'] ∧ other.lines =
      ["imp:Z,|,E,N,+,p 1"] ∧ other.parse = .ok (.data d') ∧
      d'.classifier.key = d.classifier.key := by
  have hps : ['n', '|', 'P', '+', 'e', 'z'].all Vocabulary.isParticle = true := by decide +kernel
  have hqs : ['Z', '|', 'E', 'N', '+', 'p'].all Vocabulary.isParticle = true := by decide +kernel
  have hparse :=
    @parse_importance ⟨.data, ["imp:n,|,P,+,e,z 1"], "", 0, 0⟩ ['n', '|', 'P', '+', 'e', 'z']
      rfl (by decide +kernel) (List.cons_ne_nil _ _) (List.all_eq_true.mp hps)
  have hparse' :=
    @parse_importance ⟨.data, ["imp:Z,|,E,N,+,p 1"], "", 0, 0⟩ ['Z', '|', 'E', 'N', '+', 'p']
      rfl (by decide +kernel) (List.cons_ne_nil _ _) (List.all_eq_true.mp hqs)
  obtain ⟨d, hd, himportance⟩ := hparse.1.mpr ⟨by decide, by decide⟩
  obtain ⟨d', hd', -⟩ := hparse'.1.mpr ⟨by decide, by decide⟩
  exact ⟨_, _, d, d', rfl, hd, himportance, rfl, hd',
    hparse.2 _ ['Z', '|', 'E', 'N', '+', 'p'] d d' rfl (by decide +kernel) (by decide) hd hd'⟩

/-- The heavy ion is a particle, but its mark is taken for a complement. -/
theorem parse_importance_eq_error_of_mark :
    ∃ (card : Card) (errors : List SyntaxError), card.block = .data ∧ card.lines =
      ["imp:# 1"] ∧ Vocabulary.isParticle '#' = true ∧ card.parse = .error errors := by
  have herror : (Card.parse ⟨.data, ["imp:# 1"], "", 0, 0⟩).toOption.isNone = true := by
    decide +kernel
  cases hparse : Card.parse ⟨.data, ["imp:# 1"], "", 0, 0⟩ with
  | ok r =>
    rw [hparse] at herror
    cases herror
  | error errors => exact ⟨_, errors, rfl, rfl, by decide +kernel, hparse⟩

end Card

end TransportDeck
