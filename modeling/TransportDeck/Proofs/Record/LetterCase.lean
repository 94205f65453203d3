import TransportDeck.Proofs.Grammar.AgreeingRecords

/-!
# Letter case is no matter

A card in another letter case has tokens of the same kinds at the same places.  It is accepted as a
record that says the same, or it is refused for the same errors.
-/

namespace TransportDeck

open Text

/-! ## Cards -/

/-- The letter of a comment line is told in either case. -/
theorem Line.isComment_lowerString (line : String) :
    isComment (lowerString line) = isComment line := by
  have hword (cs : List Char) : endsWord (lower cs) = endsWord cs := by
    cases cs with
    | nil => rfl
    | cons c cs => exact isBlank_toLower c
  unfold isComment
  dsimp only
  rw [toList_lowerString, isBlank_toLower.takeWhile_lower, isBlank_toLower.dropWhile_lower,
    byteSize_lower]
  cases line.toList.dropWhile Text.isBlank with
  | nil => rfl
  | cons c cs =>
    have hc : (c.toLower == 'c' || c.toLower == 'C') = (c == 'c' || c == 'C') := Lexer.isC_toLower c
    rw [lower_cons]
    simp only [hc, hword]

/-- Words are separated at the same places in either case. -/
theorem Text.words_lower (cs : List Char) : words (lower cs) = (words cs).map lower := by
  have hempty : (fun w : List Char ↦ !w.isEmpty) ∘ lower = fun w ↦ !w.isEmpty :=
    funext fun w ↦ congrArg (!·) (isEmpty_lower w)
  rw [words, wordsWhere, isBlank_toLower.splitWhere_lower, List.filter_map,
    hempty, words, wordsWhere]

namespace Card

/-- Both cards stand in one block and have the same lines, up to the case of letters. -/
structure SameLetters (c d : Card) : Prop where
  block : c.block = d.block
  lines : List.Forall₂ (fun l l' ↦ sameWord l l' = true) c.lines d.lines

instance (c d : Card) : Decidable (SameLetters c d) :=
  decidable_of_iff (c.block = d.block ∧
    List.Forall₂ (fun l l' ↦ sameWord l l' = true) c.lines d.lines)
      ⟨fun ⟨hblock, hlines⟩ ↦ ⟨hblock, hlines⟩, fun h ↦ ⟨h.block, h.lines⟩⟩

/-- The card in small letters. -/
def lowered (c : Card) : Card := { c with lines := c.lines.map lowerString }

theorem text_lowered (c : Card) : c.lowered.text = lowerString c.text := by
  have hfeed : lowerString "\n" = "\n" := by decide
  have hlines (ls : List String) :
      "\n".intercalate (ls.map lowerString) = lowerString ("\n".intercalate ls) := by
    induction ls with
    | nil => rfl
    | cons l ls ih =>
      cases ls with
      | nil => rfl
      | cons m ms =>
        rw [List.map_cons, List.map_cons, String.intercalate_cons_cons, ← List.map_cons, ih,
          String.intercalate_cons_cons, lowerString_append, lowerString_append, hfeed]
  exact hlines c.lines

theorem codeLines_lowered (c : Card) : c.lowered.codeLines = c.codeLines.map lowerString := by
  have hcode : (fun line ↦ !Line.isComment line) ∘ lowerString = fun line ↦ !Line.isComment line :=
    funext fun line ↦ congrArg (!·) (Line.isComment_lowerString line)
  rw [codeLines, lowered, List.filter_map, hcode, codeLines]

theorem firstWord?_lowered (c : Card) : c.lowered.firstWord? = c.firstWord?.map lowerString := by
  rw [firstWord?, codeLines_lowered, List.head?_map, firstWord?]
  cases c.codeLines.head? with
  | none => rfl
  | some line =>
    rw [Option.map_some, Option.bind_some, Option.bind_some, toList_lowerString,
      words_lower, List.head?_map]
    cases (words line.toList).head? with
    | none => rfl
    | some w => exact congrArg some (lowerString_ofList w).symm

/-- Whether a card asks for a file does not depend on the case of letters. -/
theorem isRead_lowered (c : Card) : c.lowered.isRead = c.isRead := by
  rw [isRead, firstWord?_lowered, isRead]
  cases c.firstWord? with
  | none => rfl
  | some word => exact lowerString_sameWord word "read"

variable {c d : Card}

theorem SameLetters.map_lines (h : c.SameLetters d) :
    c.lines.map lowerString = d.lines.map lowerString := by
  have hwords : List.Forall₂ (fun l l' ↦ lowerString l = lowerString l') c.lines d.lines :=
    h.lines.imp fun _ _ ↦ sameWord_iff.mp
  exact List.forall₂_eq_eq_eq ▸ List.forall₂_map_left_iff.mpr
    (List.forall₂_map_right_iff.mpr hwords)

theorem SameLetters.text (h : c.SameLetters d) : lowerString c.text = lowerString d.text := by
  rw [← text_lowered, ← text_lowered, Card.text, Card.text, lowered, lowered, h.map_lines]

/-- Cards that differ in the case of letters are read by one grammar. -/
theorem SameLetters.ofCard (h : c.SameLetters d) : Grammar.ofCard c = Grammar.ofCard d := by
  have hread : c.isRead = d.isRead := by
    have hlines {c d : Card} (h : c.lines = d.lines) : c.isRead = d.isRead := by
      rw [isRead, isRead, firstWord?, firstWord?, codeLines, codeLines, h]
    rw [← c.isRead_lowered, ← d.isRead_lowered]
    exact hlines h.map_lines
  rw [Grammar.ofCard, Grammar.ofCard, hread, h.block]

end Card

/-! ## Cards kept verbatim -/

/-- A verbatim record is recognised in either case. -/
theorem VerbatimRecord.nameOf?_lowerString (text : String) :
    nameOf? (lowerString text) = nameOf? text := by
  have hmark : CaseBlind fun c ↦ c == '*' || c == '+' := fun c ↦
    congrArg₂ or (caseBlind_beq (d := '*') (by decide) c) (caseBlind_beq (d := '+') (by decide) c)
  have halpha : CaseBlind Char.isAlpha := Lexer.isAlpha_toLower
  unfold nameOf?
  dsimp only
  rw [toList_lowerString, trimStart_lower, hmark.dropWhile_lower, halpha.takeWhile_lower,
    isEmpty_lower, lower_lower]

/-- Whether a record can be kept verbatim does not depend on the case of letters. -/
theorem canKeepVerbatim_alike (g : Grammar) {text text' : String}
    (htext : lowerString text = lowerString text') {es es' : List SyntaxError}
    (hes : SyntaxError.SameList es es') :
    canKeepVerbatim g text es = canKeepVerbatim g text' es' := by
  have hunsupported (es : List SyntaxError) :
      es.any SyntaxError.isUnsupported =
      (es.map SyntaxError.lowered).any SyntaxError.isUnsupported := by
    rw [List.any_map]
    exact congrArg es.any (funext fun e ↦ by cases e <;> rfl)
  rw [canKeepVerbatim, canKeepVerbatim, hunsupported, hes, ← hunsupported,
    ← VerbatimRecord.nameOf?_lowerString text, htext, VerbatimRecord.nameOf?_lowerString]

/-- Cards that are the same up to letter case are accepted or refused alike. -/
theorem Card.agree_parse {c d : Card} (h : c.SameLetters d) :
    Except.Agree SyntaxError.SameList (fun r r' ↦ r.lowered = r'.lowered) c.parse d.parse := by
  have hparse := (Grammar.ofCard c).agree_parse h.text
  unfold Card.parse
  rw [← h.ofCard]
  dsimp only
  generalize (Grammar.ofCard c).parse c.text = x at hparse ⊢
  generalize (Grammar.ofCard c).parse d.text = y at hparse ⊢
  cases hparse with
  | ok hr => exact .ok hr
  | error hes =>
    dsimp only
    rw [canKeepVerbatim_alike _ h.text hes]
    split_ifs
    · refine .ok (congrArg Record.verbatim ?_)
      simp only [VerbatimRecord.lowered, VerbatimRecord.ofText, h.text]
      rw [← VerbatimRecord.nameOf?_lowerString, h.text, VerbatimRecord.nameOf?_lowerString]
    · exact .error hes

/-! ## What records mean -/

/-- The keys are the same, and every parameter has the same values with its runs spelled out. -/
structure Parameters.SameMeaning (ps qs : Parameters) : Prop where
  keys : ps.keys = qs.keys
  values : ps.params.map (·.values.values.map (Option.map Value.lowered)) =
    qs.params.map (·.values.values.map (Option.map Value.lowered))

/-- The numbers, the region and the parameters are the same. -/
structure CellRecord.SameMeaning (c d : CellRecord) : Prop where
  number : c.numberValue = d.numberValue
  material : c.materialNumber = d.materialNumber
  density : c.densityValue? = d.densityValue?
  region : c.region = d.region
  parameters : c.parameters.SameMeaning d.parameters

/-- The numbers, the type and the constants are the same. -/
structure SurfaceRecord.SameMeaning (s s' : SurfaceRecord) : Prop where
  number : s.numberValue = s'.numberValue
  transform : s.transformNumber? = s'.transformNumber?
  type : s.typeName = s'.typeName
  constants : s.constantValues = s'.constantValues

/-- The key, the number behind the name, the values with runs spelled out and the parameters are the
same. -/
structure DataRecord.SameMeaning (d d' : DataRecord) : Prop where
  key : d.classifier.key = d'.classifier.key
  number : d.classifier.numberValue? = d'.classifier.numberValue?
  values : d.values.map (Option.map Value.lowered) = d'.values.map (Option.map Value.lowered)
  parameters : d.parameters.SameMeaning d'.parameters

/-- Both records are of one kind and say the same. -/
inductive Record.SameMeaning : Record → Record → Prop
  | cell {c d : CellRecord} (h : c.SameMeaning d) : SameMeaning (.cell c) (.cell d)
  | surface {s s' : SurfaceRecord} (h : s.SameMeaning s') : SameMeaning (.surface s) (.surface s')
  | data {d d' : DataRecord} (h : d.SameMeaning d') : SameMeaning (.data d) (.data d')
  | read {r r' : ReadRecord} : SameMeaning (.read r) (.read r')
  | verbatim {v w : VerbatimRecord} (h : v.name = w.name) : SameMeaning (.verbatim v) (.verbatim w)

/-- Parameters that differ in the case of letters have the same keys and values. -/
theorem Parameters.sameMeaning_of_lowered {ps qs : Parameters} (h : ps.lowered = qs.lowered) :
    ps.SameMeaning qs where
  keys := by rw [← ps.keys_lowered, h, qs.keys_lowered]
  values := by
    have hvalues (ps : Parameters) :
      ps.params.map (·.values.values.map (Option.map Value.lowered)) =
        ps.lowered.params.map (·.values.values) := by
      rw [lowered, List.map_map]
      exact List.map_congr_left fun p _ ↦ p.values.values_lowered.symm
    rw [hvalues, h, ← hvalues]

/-- Cells that differ in the case of letters mean the same. -/
theorem CellRecord.sameMeaning_of_lowered {c d : CellRecord} (h : c.lowered = d.lowered) :
    c.SameMeaning d := by
  obtain ⟨-, hnumber, hmaterial, hdensity, hgeometry, hparameters, hpending⟩ := CellRecord.mk.inj h
  have hvalue : c.numberValue = d.numberValue := by
    rw [numberValue, Field.toInt?_alike hnumber, numberValue]
  refine ⟨hvalue, ?_, ?_, ?_, Parameters.sameMeaning_of_lowered hparameters⟩
  · rw [materialNumber, Field.toInt?_alike hmaterial, materialNumber]
  · have hlowered (c : CellRecord) : c.densityValue? = c.lowered.densityValue? := by
      unfold densityValue?
      simp only [CellRecord.lowered]
      rcases c.density with _ | f
      · rfl
      · rcases hf : f.value with _ | v <;> simp [hf]
    rw [hlowered, h, ← hlowered]
  · have hread : c.readRegion = d.readRegion := by
      rw [readRegion, ← Region.ofGeometry_lowered, hgeometry,
        Region.ofGeometry_lowered, hvalue, readRegion]
    rw [region, region, show c.pending = d.pending from hpending, hread]

/-- Surfaces that differ in the case of letters mean the same. -/
theorem SurfaceRecord.sameMeaning_of_lowered {s s' : SurfaceRecord} (h : s.lowered = s'.lowered) :
    s.SameMeaning s' := by
  obtain ⟨-, -, hnumber, htransform, htype, hconstants⟩ := SurfaceRecord.mk.inj h
  refine ⟨?_, ?_, ?_, ?_⟩
  · rw [numberValue, Field.toInt?_alike hnumber, numberValue]
  · obtain ⟨hnone, hnone'⟩ | ⟨f, f', hf, hf', hlowered⟩ := Option.cases_of_map_eq htransform
    · rw [transformNumber?, transformNumber?, hnone, hnone']
    · rw [transformNumber?, transformNumber?, hf, hf']
      exact Field.toInt?_alike hlowered
  · have hupper (s : SurfaceRecord) :
        s.typeName = upperString (s.type.lowered.toText?.getD "") := by
      rw [typeName, Field.toText?_lowered]
      cases s.type.toText? with
      | none => rfl
      | some text =>
        rw [Option.getD_some, Option.map_some, Option.getD_some, upperString, upperString,
          toList_lowerString, lower, List.map_map]
        exact congrArg String.ofList (List.map_congr_left fun c _ ↦ (toUpper_toLower c).symm)
    rw [hupper, htype, ← hupper]
  · have hvalues (s : SurfaceRecord) :
        s.constantValues = s.constants.lowered.fields.filterMap Field.toReal? := by
      rw [constantValues, FieldList.fields_lowered, List.filterMap_map]
      exact congrArg (List.filterMap · s.constants.fields) (funext fun f ↦ f.toReal?_lowered.symm)
    rw [hvalues, hconstants, ← hvalues]

/-- Data records that differ in the case of letters mean the same. -/
theorem DataRecord.sameMeaning_of_lowered {d d' : DataRecord} (h : d.lowered = d'.lowered) :
    d.SameMeaning d' := by
  obtain ⟨-, hclassifier, -, hbody, hparameters⟩ := DataRecord.mk.inj h
  refine ⟨?_, ?_, ?_, Parameters.sameMeaning_of_lowered hparameters⟩
  · rw [← Classifier.key_lowered, hclassifier, Classifier.key_lowered]
  · rw [← Classifier.numberValue?_lowered, hclassifier, Classifier.numberValue?_lowered]
  · have hvalues (d : DataRecord) : d.values.map (Option.map Value.lowered) =
        d.body.lowered.entries := by
      rw [values]
      cases d.body with
      | values l => exact l.values_lowered.symm
      | nuclides ns => exact ns.values_lowered.symm
    rw [hvalues, hbody, ← hvalues]

/-- Records that differ in the case of letters mean the same. -/
theorem Record.sameMeaning_of_lowered {r r' : Record} (h : r.lowered = r'.lowered) :
    r.SameMeaning r' := by
  cases r <;> cases r' <;> try cases h
  case cell c d => exact .cell (CellRecord.sameMeaning_of_lowered (Record.cell.inj h))
  case surface s s' => exact .surface (SurfaceRecord.sameMeaning_of_lowered (Record.surface.inj h))
  case data d d' => exact .data (DataRecord.sameMeaning_of_lowered (Record.data.inj h))
  case read r r' => exact .read
  case verbatim v w => exact .verbatim (VerbatimRecord.mk.inj (Record.verbatim.inj h)).2

/-! ## Cards in another letter case -/

/-- A card in another letter case has, in every mode, tokens of the same kinds at the same places,
or it is refused there for the same error.  It is accepted as a record of the same kind that means
the same, or the same errors are found in it at the same places. -/
theorem Card.reads_alike_of_sameLetters {c d : Card} (h : c.SameLetters d) :
    (∀ mode, Except.Agree Eq (fun ts us ↦ ts.map (fun t ↦ (t.kind, t.span)) = us.map fun t ↦
      (t.kind, t.span))
        (tokenize mode c.text) (tokenize mode d.text)) ∧
      Except.Agree SyntaxError.SameList Record.SameMeaning c.parse d.parse := by
  have hplaces (ts : List Token) : ts.map (fun t ↦ (t.kind, t.span)) =
      (ts.map Token.lowered).map fun t ↦ (t.kind, t.span) := by
    rw [List.map_map]
    rfl
  refine ⟨fun mode ↦ (agree_tokenize h.text mode).mono fun ts us htokens ↦ ?_,
    (Card.agree_parse h).mono fun _ _ ↦ Record.sameMeaning_of_lowered⟩
  rw [hplaces, htokens, ← hplaces]

/-- A cell in capitals and in lower case. -/
theorem Card.reads_alike_of_capitals :
    (∀ mode, Except.Agree Eq (fun ts us ↦ ts.map (fun t ↦ (t.kind, t.span)) = us.map fun t ↦
      (t.kind, t.span))
        (tokenize mode
          (Card.text ⟨.cell, ["1 0 -1 2R", "C void", "     IMP:N,P=1"], "deck.i", 1, 0⟩))
        (tokenize mode
          (Card.text ⟨.cell, ["1 0 -1 2r", "c Void", "     imp:n,P=1"], "deck.i", 1, 0⟩))) ∧
      Except.Agree SyntaxError.SameList Record.SameMeaning
        (Card.parse ⟨.cell, ["1 0 -1 2R", "C void", "     IMP:N,P=1"], "deck.i", 1, 0⟩)
        (Card.parse ⟨.cell, ["1 0 -1 2r", "c Void", "     imp:n,P=1"], "deck.i", 1, 0⟩) :=
  Card.reads_alike_of_sameLetters (by decide)

end TransportDeck
