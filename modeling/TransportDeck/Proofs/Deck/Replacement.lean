import TransportDeck.Proofs.Deck.Comments
import TransportDeck.Proofs.Input.Division
import TransportDeck.Proofs.Output.Width

/-!
# Replacing lines of a deck

Lines that can be written as those of a block are read again as the cards that they are divided
into.  So when some lines of a cell are replaced by another one that shows the reader the same, the
deck that is written has the other cards as before.
-/

namespace TransportDeck

open Text

namespace Line

/-- The line without the carriage return that belongs to its line end. -/
def withoutReturn (line : String) : String := String.ofList (dropReturn line.toList)

variable {width : Nat} {line : String}

theorem exists_eq_withoutReturn_append (line : String) :
    ∃ bs, line.toList = (withoutReturn line).toList ++ bs ∧ allBlank bs = true := by
  rw [withoutReturn, String.toList_ofList]
  exact exists_eq_dropReturn_append line.toList

theorem withoutReturn_isPrefix (line : String) : (withoutReturn line).toList <+: line.toList := by
  obtain ⟨bs, hbs, -⟩ := exists_eq_withoutReturn_append line
  exact ⟨bs, hbs.symm⟩

theorem isComment_withoutReturn (line : String) :
    isComment (withoutReturn line) = isComment line := by
  obtain ⟨bs, hbs, hblank⟩ := exists_eq_withoutReturn_append line
  have h : isComment (String.ofList ((withoutReturn line).toList ++ bs)) = _ :=
    isComment_append_of_allBlank hblank
  rwa [← hbs, String.ofList_toList, String.ofList_toList, eq_comm] at h

theorem keep_withoutReturn (width : Nat) (line : String) :
    keep width (withoutReturn line) = keep width line := by
  obtain ⟨bs, hbs, hblank⟩ := exists_eq_withoutReturn_append line
  have htrim : trimEnd line.toList = trimEnd (withoutReturn line).toList := by
    rw [hbs, trimEnd_append_of_allBlank hblank]
  rw [keep, keep, isComment_withoutReturn, htrim]

theorem isBlank_of_keep_ne (h : keep width line ≠ "") : isBlank line = false := by
  rw [← Bool.not_eq_true]
  intro hblank
  have hnil : trimEnd line.toList = [] := trimEnd_eq_nil_iff.mpr hblank
  refine h ?_
  rw [keep, hnil]
  simp

end Line

namespace Reading

open Line

variable {options : ReadOptions} {width : Nat}

theorem isVertical_withoutReturn {line : String} (h : isVertical line = false) :
    isVertical (withoutReturn line) = false := by
  unfold isVertical at h ⊢
  rw [isComment_withoutReturn]
  cases hcomment : Line.isComment line with
  | true => rfl
  | false =>
    rw [hcomment] at h
    simp only [Bool.not_false, Bool.true_and] at h ⊢
    rw [← Bool.not_eq_true, List.contains_iff_mem] at h ⊢
    obtain ⟨bs, hbs⟩ := withoutReturn_isPrefix line
    intro hmem
    refine h ?_
    rw [firstColumns, ← hbs, List.take_append]
    exact List.mem_append_left _ hmem

/-- Written lines are read as they are, but for a carriage return at an end. -/
theorem normalLines_unlines_eq {ls : List String}
    (h : ∀ l ∈ ls, IsPlain options.replaceNonAscii l) :
    normalLines options (unlines ls).toList = ls.map withoutReturn := by
  rw [normalLines, lines_unlines_eq fun l hl ↦ (h l hl).one_line, List.map_map]
  refine List.map_congr_left fun l hl ↦ ?_
  have hplain := (h l hl).of_isPrefix (withoutReturn_isPrefix l)
  have := hplain.normal_eq
  rwa [withoutReturn, String.toList_ofList] at this

theorem map_bodyLines {f : String → String} (hf : f "" = "") (cells surfaces data : List String)
    (terminated : Bool) : (bodyLines cells surfaces data terminated).map f =
      bodyLines (cells.map f) (surfaces.map f) (data.map f) terminated := by
  have hseparator (needed : Bool) : (separator needed).map f = separator needed := by
    cases needed <;> simp [separator, hf]
  simp only [bodyLines, List.map_append, hseparator, List.isEmpty_map]

/-- The front of a deck, as it is written. -/
structure IsFront (options : ReadOptions) (message : Option (List String)) (title : String) :
    Prop where
  settled : ∀ l ∈ frontLines message title, IsSettled options.replaceNonAscii l
  front_eq (body : List String) : frontOf (frontLines message title ++ body) =
    (message, title :: body)

/-- Lines that can be written as those of a block. -/
structure AreLines (options : ReadOptions) (width : Nat) (ls : List String) : Prop where
  plain : ∀ l ∈ ls, IsPlain options.replaceNonAscii l
  solid : ∀ l ∈ ls, keep width l ≠ ""
  horizontal : ∀ l ∈ ls, isVertical l = false

theorem AreLines.append {ls ms : List String} (h : AreLines options width ls)
    (h' : AreLines options width ms) : AreLines options width (ls ++ ms) where
  plain := List.forall_mem_append.mpr ⟨h.plain, h'.plain⟩
  solid := List.forall_mem_append.mpr ⟨h.solid, h'.solid⟩
  horizontal := List.forall_mem_append.mpr ⟨h.horizontal, h'.horizontal⟩

theorem AreLines.of_subset {ls ms : List String} (h : AreLines options width ls)
    (hsubset : ms ⊆ ls) : AreLines options width ms where
  plain l hl := h.plain l (hsubset hl)
  solid l hl := h.solid l (hsubset hl)
  horizontal l hl := h.horizontal l (hsubset hl)

theorem AreLines.replace {cards cards' : List (List String)} {ls ms bs : List String}
    {line : String} (h : AreLines options width (cards ++ (ls ++ (ms ++ bs)) :: cards').flatten)
    (hline : AreLines options width [line]) :
    AreLines options width (cards ++ (ls ++ line :: bs) :: cards').flatten := by
  refine (hline.append h).of_subset fun l hl ↦ ?_
  simp only [List.flatten_append, List.flatten_cons, List.mem_append, List.mem_cons] at hl ⊢
  rcases hl with hl | (hl | rfl | hl) | hl
  · exact .inr (.inl hl)
  · exact .inr (.inr (.inl (.inl hl)))
  · exact .inl (.inl rfl)
  · exact .inr (.inr (.inl (.inr (.inr hl))))
  · exact .inr (.inr (.inr hl))

variable {cells surfaces data : List String} {message : Option (List String)} {title : String}

theorem AreLines.isBlank (h : AreLines options width cells) :
    ∀ l ∈ cells.map withoutReturn, isBlank l = false :=
  fun l hl ↦ by
    obtain ⟨line, hline, rfl⟩ := List.mem_map.mp hl
    have hsolid := h.solid line hline
    rw [← keep_withoutReturn] at hsolid
    exact isBlank_of_keep_ne hsolid

theorem AreLines.divide_eq (hwidth : Limits.continuationColumns < width)
    (h : AreLines options width cells) :
    divide width false false [] (cells.map withoutReturn) = divide width false false []
      (cells.map (keep width)) := by
  have hkeep : (cells.map withoutReturn).map (keep width) = cells.map (keep width) := by
    rw [List.map_map]
    refine List.map_congr_left fun l _ ↦ ?_
    rw [Function.comp_apply, keep_withoutReturn]
  have hsolid : ∀ l ∈ cells.map withoutReturn, keep width l ≠ "" := fun l hl ↦ by
    obtain ⟨line, hline, rfl⟩ := List.mem_map.mp hl
    rw [keep_withoutReturn]
    exact h.solid line hline
  have hdivide : divide width false false [] ((cells.map withoutReturn).map (keep width)) =
      divide width false false [] (cells.map withoutReturn) := divide_map_keep hwidth hsolid
  rw [← hdivide, hkeep]

theorem mem_bodyLines_of_mem {terminated : Bool} {line : String}
    (h : line ∈ cells ++ surfaces ++ data) : line ∈ bodyLines cells surfaces data terminated := by
  rcases List.mem_append.mp h with h | h
  · rcases List.mem_append.mp h with h | h
    · simp [bodyLines, h]
    · simp [bodyLines, h]
  · simp [bodyLines, h]

/-- What has been written is read as the cards that its lines are divided into. -/
theorem exists_ofText_of_lines (files : Files.Source) (path : String)
    (hwidth : options.version.width = .ok width) (hfront : IsFront options message title)
    (hcells : AreLines options width cells) (hsurfaces : AreLines options width surfaces)
    (hdata : AreLines options width data) (hcontent : cells ++ surfaces ++ data ≠ [])
    (terminated : Bool)
    (hown : ∀ c : Card, c.shape ∈ blockCards width (cells.map (keep width))
      (surfaces.map (keep width)) (data.map (keep width)) → c.target? = none) :
    ∃ deck, RawDeck.ofText options files path
        (unlines (frontLines message title ++ bodyLines cells surfaces data terminated)) =
        .ok deck ∧
      deck.message = message ∧ deck.title = some title ∧ deck.cards.map Card.shape =
        blockCards width (cells.map (keep width)) (surfaces.map (keep width))
          (data.map (keep width)) := by
  have hcolumns := continuationColumns_lt_width hwidth
  have hall : AreLines options width (cells ++ surfaces ++ data) :=
    hcells.append hsurfaces |>.append hdata
  have hbody : (bodyLines cells surfaces data terminated).map withoutReturn =
    bodyLines (cells.map withoutReturn)
      (surfaces.map withoutReturn) (data.map withoutReturn) terminated := map_bodyLines rfl ..
  have hfrontLines : (frontLines message title).map withoutReturn = frontLines message title := by
    refine (List.map_congr_left fun l hl ↦ ?_).trans (List.map_id _)
    have hsettled := hfront.settled l hl
    rw [withoutReturn, IsClosable.dropReturn_eq ⟨hsettled.plain.one_line, hsettled.trimmed⟩,
      String.ofList_toList]
    rfl
  have hplain : ∀ l ∈ frontLines message title ++ bodyLines cells surfaces data terminated,
      IsPlain options.replaceNonAscii l := fun l hl ↦ by
    rcases List.mem_append.mp hl with hl | hl
    · exact (hfront.settled l hl).plain
    · rcases mem_bodyLines hl with rfl | hl
      · exact isPlain_empty _
      · exact hall.plain l hl
  have hnormal := normalLines_unlines_eq hplain
  rw [List.map_append, hfrontLines, hbody] at hnormal
  have hdrop : (frontOf (normalLines options (unlines (frontLines message title ++
      bodyLines cells surfaces data terminated)).toList)).2.drop 1 =
      bodyLines (cells.map withoutReturn)
        (surfaces.map withoutReturn) (data.map withoutReturn) terminated := by
    rw [hnormal, hfront.front_eq, List.drop_one, List.tail_cons]
  have hcards : cardsIn width Limits.blocks (bodyLines (cells.map withoutReturn)
    (surfaces.map withoutReturn)
      (data.map withoutReturn) terminated) =
      blockCards width (cells.map (keep width)) (surfaces.map (keep width))
        (data.map (keep width)) := by
    rw [cardsIn_bodyLines terminated hcells.isBlank hsurfaces.isBlank hdata.isBlank, blockCards,
      hcells.divide_eq hcolumns, hsurfaces.divide_eq hcolumns, hdata.divide_eq hcolumns]
    rfl
  refine exists_ofText hwidth ⟨?_, fun line hline ↦ ?_⟩ ⟨?_, ?_, ?_⟩ hown
  · obtain ⟨l, hl⟩ := List.exists_mem_of_ne_nil _ hcontent
    have hsolid : Line.isBlank (withoutReturn l) = false := hall.isBlank _ (List.mem_map_of_mem hl)
    rw [← Bool.not_eq_true, List.all_eq_true]
    intro hblank
    have hmem : withoutReturn l ∈ normalLines options (unlines (frontLines message title ++
        bodyLines cells surfaces data terminated)).toList := by
      rw [normalLines_unlines_eq hplain]
      exact List.mem_map_of_mem (List.mem_append_right _ (mem_bodyLines_of_mem hl))
    rw [hblank _ hmem] at hsolid
    cases hsolid
  · rw [hdrop] at hline
    obtain ⟨hmem, hsolid⟩ := mem_linesIn hline
    rcases mem_bodyLines hmem with rfl | hmem
    · cases hsolid
    · rw [← List.map_append, ← List.map_append] at hmem
      obtain ⟨l, hl, rfl⟩ := List.mem_map.mp hmem
      exact isVertical_withoutReturn (hall.horizontal l hl)
  · rw [hnormal, hfront.front_eq]
  · have htitle := hfront.settled title (List.mem_append_right _ (List.mem_singleton_self _))
    rw [hnormal, hfront.front_eq, List.head?_cons, Option.map_some, trimEndString, htitle.trimmed,
      String.ofList_toList]
  · rw [hdrop, hcards]

/-! ## Decks -/

/-- In a deck the cards of the cell block stand in front. -/
theorem exists_groups {before after : List (Block × List String)}
    {card cells surfaces data : List String}
    (h : blockCards width cells surfaces data = before ++ (Block.cell, card) :: after) : ∃ bs as,
      divide width false false [] cells = bs ++ card :: as ∧ before = bs.map (Block.cell, ·) ∧
      after = as.map (Block.cell, ·) ++
      ((divide width false false [] surfaces).map (Block.surface, ·) ++
        (divide width false false [] data).map (Block.data, ·)) := by
  rw [blockCards] at h
  generalize hrest : (divide width false false [] surfaces).map (Block.surface, ·) ++
    (divide width false false [] data).map (Block.data, ·) = rest at h ⊢
  have hother : (Block.cell, card) ∉ rest := by
    rw [← hrest]
    simp
  rcases List.append_eq_append_iff.mp h with ⟨others, -, rfl⟩ | ⟨others, hcells, hothers⟩
  · exact absurd (by simp) hother
  · rcases List.cons_eq_append_iff.mp hothers with ⟨rfl, rfl⟩ | ⟨as, rfl, rfl⟩
    · exact absurd List.mem_cons_self hother
    · obtain ⟨bs, tail, hdivide, rfl, htail⟩ := List.map_eq_append_iff.mp hcells
      obtain ⟨first, rest', rfl, hfirst, rfl⟩ := List.map_eq_cons_iff.mp htail
      obtain rfl : first = card := congrArg Prod.snd hfirst
      exact ⟨bs, rest', hdivide, rfl, rfl⟩

theorem map_keep_keep (hwidth : Limits.continuationColumns < width) (ls : List String) :
    (ls.map (keep width)).map (keep width) = ls.map (keep width) := by
  rw [List.map_map]
  refine List.map_congr_left fun l _ ↦ ?_
  rw [Function.comp_apply, keep_keep hwidth]

theorem map_keep_of_divide (hwidth : Limits.continuationColumns < width)
    {cards : List (List String)} (h : divide width false false [] cells = cards) :
    ∀ l ∈ cards.flatten, keep width l = l := by
  rw [← h, flatten_divide, List.nil_append]
  exact List.forall_mem_map.mpr fun l _ ↦ keep_keep hwidth l

/-- The lines of a block are divided as before when lines in the middle of a card are replaced. -/
theorem divide_replaced (hwidth : Limits.continuationColumns < width)
    {cards cards' : List (List String)} {ls ms bs : List String} {line : String}
    (hkeep : ∀ l ∈ cells, keep width l ≠ "")
    (hdivide : divide width false false [] cells = cards ++ (ls ++ (ms ++ bs)) :: cards')
    (hcondenses : Condenses ms (keep width line))
    (hends : EndsAlike width ms (keep width line) bs) :
    divide width false false [] ((cards ++ (ls ++ line :: bs) :: cards').flatten.map (keep width)) =
      cards ++ (ls ++ keep width line :: bs) :: cards' := by
  have hkept := map_keep_of_divide hwidth hdivide
  have hdivision : IsDivision width (cards ++ (ls ++ (ms ++ bs)) :: cards') := by
    refine isDivision_divide hkept ?_
    rw [← hdivide, flatten_divide, List.nil_append, divide_map_keep hwidth hkeep]
  have hmap : (cards ++ (ls ++ line :: bs) :: cards').flatten.map (keep width) =
      (cards ++ (ls ++ keep width line :: bs) :: cards').flatten := by
    have hself {cs : List String} (h : ∀ l ∈ cs, keep width l = l) : cs.map (keep width) = cs :=
      (List.map_congr_left h).trans (List.map_id' cs)
    simp only [List.flatten_append, List.flatten_cons, List.forall_mem_append] at hkept
    simp only [List.flatten_append, List.flatten_cons, List.map_append, List.map_cons,
      hself hkept.1, hself hkept.2.1.1, hself hkept.2.1.2.2, hself hkept.2.2]
  have hnew := divide_of_isDivision (isDivision_replace hcondenses hends hdivision)
  have hkept' : ∀ l ∈ (cards ++ (ls ++ keep width line :: bs) :: cards').flatten,
      keep width l = l := by
    rw [← hmap]
    exact List.forall_mem_map.mpr fun l _ ↦ keep_keep hwidth l
  have hself : (cards ++ (ls ++ keep width line :: bs) :: cards').map (·.map (keep width)) =
      cards ++ (ls ++ keep width line :: bs) :: cards' :=
    (List.map_congr_left fun card hcard ↦ (List.map_congr_left fun l hl ↦
      hkept' l (List.mem_flatten_of_mem hcard hl)).trans (List.map_id' card)).trans (List.map_id' _)
  rw [hmap, hnew, hself]

/-- Lines that have been kept are written as they are. -/
theorem areLines_map_keep (hwidth : Limits.continuationColumns < width)
    (hsettled : ∀ l ∈ cells, IsSettled options.replaceNonAscii (keep width l))
    (hsolid : ∀ l ∈ cells, keep width l ≠ "") (hhorizontal : ∀ l ∈ cells, isVertical l = false) :
    AreLines options width (cells.map (keep width)) where
  plain := List.forall_mem_map.mpr fun l hl ↦ (hsettled l hl).plain
  solid := List.forall_mem_map.mpr fun l hl ↦ by
    rw [keep_keep hwidth]
    exact hsolid l hl
  horizontal := List.forall_mem_map.mpr fun l hl ↦
    isVertical_keep hwidth (hsolid l hl) (hhorizontal l hl)

end Reading

namespace RawDeck

open Reading

variable {options : ReadOptions} {files : Files.Source} {path text : String} {deck : RawDeck}
  {w : LineWidth}

/-- What has been read as the front of a deck can be written as one. -/
theorem isFront (h : ofText options files path text = .ok deck)
    (hown : ∀ c ∈ deck.cards, c.target? = none) :
    IsFront options deck.message (deck.title.getD "") := by
  obtain ⟨width, hwidth⟩ := width_of_ofText h
  obtain ⟨-, hdeck⟩ := isDeckOf_of_ofText hwidth h hown
  rw [hdeck.message_eq, hdeck.title_eq]
  exact ⟨fun l hl ↦ isSettled_of_mem_frontLines (fun l hl ↦ isPlain_of_mem_normalLines hl) hl,
    frontOf_frontLines _⟩

/-- A deck with a card has a title. -/
theorem title_eq_some (h : ofText options files path text = .ok deck)
    (hown : ∀ c ∈ deck.cards, c.target? = none) {card : Card} (hcard : card ∈ deck.cards) :
    deck.title = some (deck.title.getD "") := by
  obtain ⟨width, hwidth⟩ := width_of_ofText h
  obtain ⟨-, hdeck⟩ := isDeckOf_of_ofText hwidth h hown
  have hmem : card.shape ∈ deck.cards.map Card.shape := List.mem_map_of_mem hcard
  rw [hdeck.cards_eq] at hmem
  rw [hdeck.title_eq]
  cases hrest : (frontOf (normalLines options text.toList)).2 with
  | nil =>
    rw [hrest, List.drop_nil, cardsIn_nil] at hmem
    cases hmem
  | cons first rest => rfl

section Replace

variable {before after : List Card} {card : Card} {ls ms bs : List String} {line : String}

/-- The deck with other lines in one of its cards. -/
def withLines (deck : RawDeck) (before : List Card) (card : Card) (after : List Card)
    (ls : List String) : RawDeck :=
  { deck with cards := before ++ { card with lines := ls } :: after }

theorem map_shape_withLines (hblock : card.block = .cell) :
    (deck.withLines before card after ls).cards.map Card.shape =
      before.map Card.shape ++ (Block.cell, ls) :: after.map Card.shape := by
  rw [withLines, List.map_append, List.map_cons, Card.shape, hblock]

/-- If the new card asks for no other file, none does. -/
theorem target?_of_replaced (hown : ∀ c ∈ deck.cards, c.target? = none)
    (hcards : deck.cards = before ++ card :: after)
    (htarget : ({ card with lines := ls } : Card).target? = none) {c : Card}
    (hc : c.shape ∈ before.map Card.shape ++ (Block.cell, ls) :: after.map Card.shape) :
    c.target? = none := by
  rw [hcards, List.forall_mem_append, List.forall_mem_cons] at hown
  have hold {cs : List Card} (hcs : ∀ c ∈ cs, c.target? = none) (hc : c.shape ∈ cs.map Card.shape) :
      c.target? = none := by
    obtain ⟨c', hc', heq⟩ := List.mem_map.mp hc
    rw [← hcs c' hc']
    exact target?_congr (congrArg Prod.snd heq).symm
  rcases List.mem_append.mp hc with hc | hc
  · exact hold hown.1 hc
  · rcases List.mem_cons.mp hc with hc | hc
    · rw [← htarget]
      exact target?_congr (congrArg Prod.snd hc)
    · exact hold hown.2.2 hc

theorem areWritten_withLines (h : ofText options files path text = .ok deck)
    (hown : ∀ c ∈ deck.cards, c.target? = none) (hw : LineWidth.ofVersion options.version = .ok w)
    (hcards : deck.cards = before ++ card :: after) (hblock : card.block = .cell)
    (hlines : card.lines = ls ++ (ms ++ bs)) (hline : '\n' ∉ line.toList)
    (hfits : Line.Fits w.columns line) :
    AreWritten w.columns
      ((deck.withLines before card after (ls ++ line :: bs)).cards.map Card.shape) := by
  have hwritten := areWritten_of_ofText h hown hw
  rw [hcards, List.map_append, List.map_cons] at hwritten
  rw [map_shape_withLines hblock]
  simp only [AreWritten, List.forall_mem_append, List.forall_mem_cons,
    Card.shape, hlines] at hwritten ⊢
  obtain ⟨hbefore, ⟨-, hls, -, hbs⟩, hafter⟩ := hwritten
  exact ⟨hbefore, ⟨by simp, hls, ⟨hline, hfits⟩, hbs⟩, hafter⟩

/-- In a cell of a deck some lines can be replaced by another one that shows the reader the same. -/
theorem exists_ofText_of_replaced (h : ofText options files path text = .ok deck)
    (hown : ∀ c ∈ deck.cards, c.target? = none) (hsolid : ∀ c ∈ deck.cards, "" ∉ c.lines)
    (hw : LineWidth.ofVersion options.version = .ok w)
    (hcards : deck.cards = before ++ card :: after) (hblock : card.block = .cell)
    (hlines : card.lines = ls ++ (ms ++ bs)) (hline : AreLines options w.columns [line])
    (hfits : Line.Fits w.columns line) (hcondenses : Condenses ms (Line.keep w.columns line))
    (hends : EndsAlike w.columns ms (Line.keep w.columns line) bs)
    (htarget : ({ card with lines := ls ++ Line.keep w.columns line :: bs } : Card).target? =
      none) :
    ∃ deck', ofText options files path
        ((deck.withLines before card after (ls ++ line :: bs)).deckText.layOut w).text = .ok deck' ∧
      deck'.message = deck.message ∧ deck'.title = deck.title ∧ deck'.cards.map Card.shape =
        before.map Card.shape ++
        (Block.cell, ls ++ Line.keep w.columns line :: bs) :: after.map Card.shape := by
  have hwidth := width_of_ofVersion hw
  have hcolumns := w.room
  obtain ⟨cells, surfaces, data, hlaid⟩ := exists_isLaidOut h hown hw
  have hkeep := hlaid.keep_ne_empty hsolid
  have hshapes := hlaid.cards_eq
  rw [hcards, List.map_append, List.map_cons, show card.shape =
    (Block.cell, card.lines) by rw [Card.shape, hblock], eq_comm] at hshapes
  obtain ⟨cards, cards', hdivide, hbefore, hafter⟩ := exists_groups hshapes
  rw [hlines] at hdivide
  have hsettled := hlaid.settled
  have hhorizontal := hlaid.horizontal
  simp only [List.forall_mem_append] at hkeep hsettled hhorizontal
  have hold := areLines_map_keep hcolumns hsettled.1.1 hkeep.1.1 hhorizontal.1.1
  have hcells : AreLines options w.columns (cards ++ (ls ++ line :: bs) :: cards').flatten := by
    have hflat := congrArg List.flatten hdivide
    rw [flatten_divide, List.nil_append] at hflat
    exact AreLines.replace (hflat ▸ hold) hline
  have hnew := divide_replaced hcolumns hkeep.1.1 hdivide hcondenses hends
  have hshapes' :
    blockCards w.columns ((cards ++ (ls ++ line :: bs) :: cards').flatten.map (Line.keep w.columns))
      ((surfaces.map (Line.keep w.columns)).map (Line.keep w.columns))
      ((data.map (Line.keep w.columns)).map (Line.keep w.columns)) =
        before.map Card.shape ++
        (Block.cell, ls ++ Line.keep w.columns line :: bs) :: after.map Card.shape := by
    rw [blockCards, hnew, map_keep_keep hcolumns, map_keep_keep hcolumns,
      divide_map_keep hcolumns hkeep.1.2, divide_map_keep hcolumns hkeep.2, hbefore, hafter,
      List.map_append, List.map_cons, List.append_assoc, List.cons_append]
  have hwritten :=
    areWritten_withLines h hown hw hcards hblock hlines
      (hline.plain line (List.mem_singleton_self _)).one_line hfits
  have htext := text_layOut hwritten
  have hgroups : before.map Card.shape ++ (Block.cell, ls ++ line :: bs) :: after.map Card.shape =
      (cards ++ (ls ++ line :: bs) :: cards').map (Block.cell, ·) ++
        ((divide w.columns false false [] surfaces).map (Block.surface, ·) ++
          (divide w.columns false false [] data).map (Block.data, ·)) := by
    rw [hbefore, hafter, List.map_append, List.map_cons, List.append_assoc, List.cons_append]
  rw [map_shape_withLines hblock, hgroups, cardLines_blocks, cardLines_blocks,
    cardLines_blocks] at htext
  dsimp only at htext
  rw [flatten_divide, flatten_divide, List.nil_append, List.nil_append] at htext
  have hcard : card ∈ deck.cards := hcards ▸ List.mem_append_right _ List.mem_cons_self
  have hcontent :
    (cards ++ (ls ++ line :: bs) :: cards').flatten ++ surfaces.map (Line.keep w.columns) ++
      data.map (Line.keep w.columns) ≠ [] := by simp
  obtain ⟨deck', hdeck', hmessage, htitle, hcards'⟩ :=
    exists_ofText_of_lines files path hwidth (isFront h hown)
      hcells (areLines_map_keep hcolumns hsettled.1.2 hkeep.1.2 hhorizontal.1.2)
    (areLines_map_keep hcolumns hsettled.2 hkeep.2 hhorizontal.2)
        hcontent deck.terminated fun c hc ↦ by
      rw [hshapes'] at hc
      exact target?_of_replaced hown hcards htarget hc
  refine ⟨deck', ?_, hmessage, htitle.trans (title_eq_some h hown hcard).symm,
    hcards'.trans hshapes'⟩
  rw [htext]
  exact hdeck'

end Replace

end RawDeck

end TransportDeck
