import TransportDeck.Proofs.Input.Front
import TransportDeck.Proofs.Output.Lines

/-!
# Reading what was written

The cards of a deck, laid out as they are, read as the same deck again.  What stands in the way is a
line of which nothing was kept: written in the middle of a card it is a blank line, and closes the
block.
-/

namespace TransportDeck

open Text

/-! ## Laid out lines -/

namespace RawDeck

/-- The cards of a block, as they are. -/
def textsIn (deck : RawDeck) (b : Block) : List String :=
  (deck.cards.filter (·.block = b)).map Card.text

/-- The deck as it is, to be laid out. -/
def deckText (deck : RawDeck) : DeckText :=
  ⟨deck.message, deck.title.getD "", deck.textsIn .cell, deck.textsIn .surface, deck.textsIn .data,
    deck.terminated⟩

end RawDeck

namespace Reading

def frontLines (message : Option (List String)) (title : String) : List String :=
  (match message with
    | some ls => ls ++ [""]
    | none => []) ++ [title]

def separator (needed : Bool) : List String := if needed then [""] else []

def bodyLines (cells surfaces data : List String) (terminated : Bool) : List String :=
  cells ++ separator (!surfaces.isEmpty || !data.isEmpty) ++ surfaces ++
    separator (!data.isEmpty) ++ data ++ separator terminated

/-- The lines of the cards in a block. -/
def cardLines (b : Block) (cards : List (Block × List String)) : List String :=
  (cards.filter (·.1 = b)).flatMap (·.2)

theorem text_blankLine (needed : Bool) :
    (DeckText.blankLine needed).text = unlines (separator needed) := by
  cases needed <;> rfl

/-- What is known of the cards of a deck: each has a line, and its lines fit. -/
def AreWritten (width : Nat) (cards : List (Block × List String)) : Prop :=
  ∀ c ∈ cards, c.2 ≠ [] ∧ ∀ l ∈ c.2, '\n' ∉ l.toList ∧ Line.Fits width l

variable {width : Nat}

/-- A block of the laid out deck is the lines of its cards, one below the other. -/
theorem text_block {cards : List Card} (h : AreWritten width (cards.map Card.shape)) (b : Block) :
    (DeckText.block width ((cards.filter (·.block = b)).map Card.text)).text =
      unlines (cardLines b (cards.map Card.shape)) := by
  have hcards : cardLines b (cards.map Card.shape) =
      (cards.filter (·.block = b)).flatMap Card.lines := by
    rw [cardLines, List.filter_map, List.flatMap_map]
    rfl
  rw [DeckText.block, Rendered.text_concat, hcards, unlines_flatMap, List.map_map, List.map_map]
  refine congrArg String.join (List.map_congr_left fun c hc ↦ ?_)
  obtain ⟨hne, hlines⟩ := h c.shape (List.mem_map_of_mem (List.mem_of_mem_filter hc))
  have hwrap := wrap_intercalate hne (fun l hl ↦ (hlines l hl).1) (fun l hl ↦ (hlines l hl).2)
  change (wrap width ("\n".intercalate c.lines) ++ Rendered.ofText "\n").text = unlines c.lines
  rw [Rendered.text_append, show wrap width ("\n".intercalate c.lines) = _ from hwrap]
  exact intercalate_append_eq_unlines hne

/-- A block without lines has no cards. -/
theorem isEmpty_cardLines {cards : List Card} (h : AreWritten width (cards.map Card.shape))
    (b : Block) : (cardLines b (cards.map Card.shape)).isEmpty =
      ((cards.filter (·.block = b)).map Card.text).isEmpty := by
  have hcards : cardLines b (cards.map Card.shape) =
      (cards.filter (·.block = b)).flatMap Card.lines := by
    rw [cardLines, List.filter_map, List.flatMap_map]
    rfl
  rw [hcards]
  cases hfilter : cards.filter (·.block = b) with
  | nil => rfl
  | cons c cs =>
    have hc : c ∈ cards := List.mem_of_mem_filter (hfilter ▸ List.mem_cons_self)
    have hne := (h c.shape (List.mem_map_of_mem hc)).1
    obtain ⟨l, ls, hls⟩ := List.exists_cons_of_ne_nil hne
    change c.lines = l :: ls at hls
    simp [hls]

/-- The lines of the text that a deck is laid out to. -/
theorem text_layOut {w : LineWidth} {deck : RawDeck}
    (h : AreWritten w.columns (deck.cards.map Card.shape)) :
    (deck.deckText.layOut w).text = unlines (frontLines deck.message (deck.title.getD "") ++
      bodyLines (cardLines .cell (deck.cards.map Card.shape))
        (cardLines .surface (deck.cards.map Card.shape))
          (cardLines .data (deck.cards.map Card.shape))
        deck.terminated) := by
  have hfront : deck.deckText.front.text =
      unlines (frontLines deck.message (deck.title.getD "")) := by
    unfold DeckText.front frontLines RawDeck.deckText
    cases deck.message with
    | none => simp [DeckText.line, Rendered.empty]
    | some ls =>
      have hlines : (Rendered.concat (ls.map DeckText.line)).text = unlines ls := by
        rw [Rendered.text_concat, List.map_map]
        rfl
      simp [hlines, DeckText.line, DeckText.blankLine, String.append_assoc]
  simp only [DeckText.layOut, Rendered.text_append, hfront, text_blankLine, bodyLines,
    unlines_append, isEmpty_cardLines h]
  simp only [RawDeck.deckText, RawDeck.textsIn, text_block h, String.append_assoc]

/-! ## The front of the laid out deck -/

/-- Blanks have no capitals. -/
theorem foldUpper_of_isBlank {c : Char} (h : isBlank c = true) : foldUpper c = [c] := by
  have hupper : c.toUpper = c := by
    unfold Char.toUpper
    split_ifs with hlower
    · have hge : 97 ≤ c.toNat := hlower.1
      have hle : c.toNat ≤ 122 := hlower.2
      simp only [isBlank, Bool.or_eq_true, Bool.and_eq_true, decide_eq_true_eq, beq_iff_eq] at h
      omega
    · rfl
  unfold foldUpper
  rw [hupper]
  split_ifs with hsharp hlong
  · obtain rfl := beq_iff_eq.mp hsharp
    cases h
  · obtain rfl := beq_iff_eq.mp hlong
    cases h
  · rfl

/-- A blank text is the same in capitals. -/
theorem flatMap_foldUpper {cs : List Char} (h : allBlank cs = true) :
    cs.flatMap foldUpper = cs := by
  rw [allBlank, List.all_eq_true] at h
  induction cs with
  | nil => rfl
  | cons c cs ih =>
    rw [List.forall_mem_cons] at h
    rw [List.flatMap_cons, foldUpper_of_isBlank h.1, ih h.2]
    rfl

/-- A text without blanks does not reach into the blanks at the end of another. -/
theorem prefix_append_iff_of_solid {heading as bs : List Char}
    (hsolid : ∀ c ∈ heading, isBlank c = false) (hblank : allBlank bs = true) :
    heading <+: as ++ bs ↔ heading <+: as := by
  refine ⟨fun h ↦ ?_, fun h ↦ h.trans (List.prefix_append _ _)⟩
  rcases le_total heading.length as.length with hle | hle
  · exact (List.isPrefix_append_of_length hle).mp h
  · obtain ⟨cs, rfl⟩ := List.prefix_of_prefix_length_le (List.prefix_append as bs) h hle
    rw [List.prefix_append_right_inj] at h
    cases cs with
    | nil => simp
    | cons c cs =>
      have hc := hsolid c (List.mem_append_right _ List.mem_cons_self)
      rw [List.all_eq_true.mp hblank c (h.subset List.mem_cons_self)] at hc
      cases hc

/-- Whether a line opens a message does not depend on the blanks at its end. -/
theorem opensMessage_trimEndString (line : String) :
    opensMessage (trimEndString line) = opensMessage line := by
  obtain ⟨bs, hbs, hblank⟩ := exists_eq_trimEnd_append line.toList
  have hsplit : line.toList.flatMap foldUpper = (trimEnd line.toList).flatMap foldUpper ++ bs := by
    nth_rewrite 1 [hbs]
    rw [List.flatMap_append, flatMap_foldUpper hblank]
  have hall : "MESSAGE:".toList.all (!isBlank ·) = true := by decide
  have hsolid : ∀ c ∈ "MESSAGE:".toList, isBlank c = false := fun c hc ↦
    Bool.not_eq_true' _ ▸ List.all_eq_true.mp hall c hc
  unfold opensMessage trimEndString
  generalize "MESSAGE:".toList = heading at hsolid ⊢
  rw [String.toList_ofList, hsplit, Bool.eq_iff_iff, List.isPrefixOf_iff_prefix,
    List.isPrefixOf_iff_prefix]
  exact (prefix_append_iff_of_solid hsolid hblank).symm

/-- The word that opens a message is not blank. -/
theorem isBlank_of_opensMessage {line : String} (h : opensMessage line = true) :
    Line.isBlank line = false := by
  rw [← Bool.not_eq_true]
  intro hblank
  rw [opensMessage, flatMap_foldUpper hblank, List.isPrefixOf_iff_prefix] at h
  have := List.all_eq_true.mp hblank 'M' (h.subset (by decide))
  cases this

theorem isBlank_trimEndString (line : String) :
    Line.isBlank (trimEndString line) = Line.isBlank line := by
  obtain ⟨bs, hbs, hblank⟩ := exists_eq_trimEnd_append line.toList
  rw [Line.isBlank, Line.isBlank, trimEndString, String.toList_ofList]
  nth_rewrite 2 [hbs]
  rw [allBlank_append, hblank, Bool.and_true]

/-- Lines that are not blank stay in their block. -/
theorem inBlock_of_solid {ls : List String} (h : ∀ l ∈ ls, Line.isBlank l = false) :
    inBlock ls = ls :=
  List.takeWhile_eq_self_iff.mpr fun l hl ↦ by simp [h l hl]

theorem behind_of_solid {ls : List String} (h : ∀ l ∈ ls, Line.isBlank l = false) :
    behind ls = [] := by
  have hdrop : ls.dropWhile (!Line.isBlank ·) = [] :=
    List.dropWhile_eq_nil_iff.mpr fun l hl ↦ by simp [h l hl]
  rw [behind, hdrop, List.drop_nil]

/-- A block ends at the first blank line. -/
theorem inBlock_append {ls : List String} (h : ∀ l ∈ ls, Line.isBlank l = false)
    (rest : List String) : inBlock (ls ++ "" :: rest) = ls := by
  have hin := inBlock_of_solid h
  rw [inBlock] at hin ⊢
  rw [List.takeWhile_append, hin, if_pos rfl]
  change ls ++ [] = ls
  rw [List.append_nil]

/-- Behind the first blank line the next block starts. -/
theorem behind_append {ls : List String} (h : ∀ l ∈ ls, Line.isBlank l = false)
    (rest : List String) : behind (ls ++ "" :: rest) = rest := by
  have hdrop : ls.dropWhile (!Line.isBlank ·) = [] :=
    List.dropWhile_eq_nil_iff.mpr fun l hl ↦ by simp [h l hl]
  rw [behind, List.dropWhile_append, hdrop]
  rfl

theorem isBlank_of_mem_inBlock {ls : List String} {l : String} (h : l ∈ inBlock ls) :
    Line.isBlank l = false := by
  simpa using List.mem_takeWhile_imp h

/-- The front of a deck is written so that it is read again. -/
theorem frontOf_frontLines (ls body : List String) :
    frontOf (frontLines (frontOf ls).1 (((frontOf ls).2.head?.map trimEndString).getD "") ++ body) =
      ((frontOf ls).1, ((frontOf ls).2.head?.map trimEndString).getD "" :: body) := by
  cases ls with
  | nil => rfl
  | cons first rest =>
    by_cases hopens : opensMessage first = true
    · have hfront : frontOf (first :: rest) =
          (some ((inBlock (first :: rest)).map trimEndString), behind (first :: rest)) := by
        rw [frontOf, if_pos hopens]
      rw [hfront]
      have hsolid : ∀ l ∈ (inBlock (first :: rest)).map trimEndString, Line.isBlank l = false := by
        intro l hl
        obtain ⟨line, hline, rfl⟩ := List.mem_map.mp hl
        rw [isBlank_trimEndString]
        exact isBlank_of_mem_inBlock hline
      have htrimmed : ((inBlock (first :: rest)).map trimEndString).map trimEndString =
          (inBlock (first :: rest)).map trimEndString := by
        rw [List.map_map]
        exact List.map_congr_left fun l _ ↦ by simp [trimEndString]
      have hcons : inBlock (first :: rest) = first :: inBlock rest := by
        rw [inBlock, List.takeWhile_cons, isBlank_of_opensMessage hopens]
        rfl
      have hopens' : opensMessage (trimEndString first) = true := by
        rw [opensMessage_trimEndString, hopens]
      generalize ((behind (first :: rest)).head?.map trimEndString).getD "" = title
      have hlines : frontLines (some ((inBlock (first :: rest)).map trimEndString)) title ++ body =
          (inBlock (first :: rest)).map trimEndString ++ "" :: title :: body := by
        simp [frontLines]
      rw [hlines]
      have hread := inBlock_append hsolid (title :: body)
      have hleft := behind_append hsolid (title :: body)
      generalize hm : (inBlock (first :: rest)).map trimEndString = m at *
      rw [hcons, List.map_cons] at hm
      subst hm
      rw [List.cons_append, frontOf, if_pos hopens', ← List.cons_append, hread, hleft, htrimmed]
    · have hfront : frontOf (first :: rest) = (none, first :: rest) := by
        rw [frontOf, if_neg hopens]
      rw [hfront]
      change frontOf (trimEndString first :: body) = (none, trimEndString first :: body)
      rw [frontOf, opensMessage_trimEndString, if_neg hopens]

/-! ## The blocks of the laid out deck -/

/-- The cards of three blocks. -/
def blockCards (width : Nat) (cells surfaces data : List String) : List (Block × List String) :=
  (divide width false false [] cells).map (Block.cell, ·) ++
    ((divide width false false [] surfaces).map (Block.surface, ·) ++
      (divide width false false [] data).map (Block.data, ·))

/-- The cards of a text are those of its three blocks. -/
theorem cardsIn_blocks (width : Nat) (ls : List String) : cardsIn width Limits.blocks ls =
    blockCards width (inBlock ls) (inBlock (behind ls)) (inBlock (behind (behind ls))) := by
  change _ ++ (_ ++ (_ ++ [])) = _
  rw [List.append_nil]
  rfl

/-- Lines that are not blank make up the cards of the first block that is left. -/
theorem cardsIn_append {ls : List String} (h : ∀ l ∈ ls, Line.isBlank l = false) (room : Nat)
    (rest : List String) : cardsIn width (room + 1) (ls ++ "" :: rest) =
      (divide width false false [] ls).map (Block.ofIndex (2 - room), ·) ++
      cardsIn width room rest := by
  rw [cardsIn, inBlock_append h, behind_append h]

/-- The blank line behind a block is missing where nothing follows. -/
theorem cardsIn_append_separator {ls : List String} (h : ∀ l ∈ ls, Line.isBlank l = false)
    (room : Nat) (needed : Bool) : cardsIn width (room + 1) (ls ++ separator needed) =
      (divide width false false [] ls).map (Block.ofIndex (2 - room), ·) := by
  cases needed with
  | true => rw [separator, if_pos rfl, cardsIn_append h, cardsIn_nil, List.append_nil]
  | false =>
    rw [separator, if_neg Bool.false_ne_true, List.append_nil, cardsIn, inBlock_of_solid h,
      behind_of_solid h, cardsIn_nil, List.append_nil]

/-- A blank line stands between blocks only if something follows; the blocks are told apart all the
same. -/
theorem cardsIn_bodyLines {cells surfaces data : List String} (terminated : Bool)
    (hcells : ∀ l ∈ cells, Line.isBlank l = false)
    (hsurfaces : ∀ l ∈ surfaces, Line.isBlank l = false)
    (hdata : ∀ l ∈ data, Line.isBlank l = false) :
    cardsIn width Limits.blocks (bodyLines cells surfaces data terminated) =
      blockCards width cells surfaces data := by
  have hnone : divide width false false [] [] = [] := rfl
  change cardsIn width (2 + 1) _ = _
  cases data with
  | cons d ds =>
    have hbody : bodyLines cells surfaces (d :: ds) terminated =
        cells ++ "" :: (surfaces ++ "" :: ((d :: ds) ++ separator terminated)) := by
      simp [bodyLines, separator]
    rw [hbody, cardsIn_append hcells, cardsIn_append hsurfaces, cardsIn_append_separator hdata]
    rfl
  | nil =>
    cases surfaces with
    | cons s ss =>
      have hbody : bodyLines cells (s :: ss) [] terminated =
          cells ++ "" :: ((s :: ss) ++ separator terminated) := by
        simp [bodyLines, separator]
      rw [hbody, cardsIn_append hcells, cardsIn_append_separator hsurfaces, blockCards, hnone]
      simp [Block.ofIndex]
    | nil =>
      have hbody : bodyLines cells [] [] terminated = cells ++ separator terminated := by
        simp [bodyLines, separator]
      rw [hbody, cardsIn_append_separator hcells, blockCards, hnone]
      simp [Block.ofIndex]

/-- A line of a block is one of the lines, and not blank. -/
theorem mem_linesIn {room : Nat} {ls : List String} {line : String} (h : line ∈ linesIn room ls) :
    line ∈ ls ∧ Line.isBlank line = false := by
  induction room generalizing ls with
  | zero => cases h
  | succ room ih =>
    rcases List.mem_append.mp h with h | h
    · exact ⟨(List.takeWhile_prefix _).subset h, isBlank_of_mem_inBlock h⟩
    · have := ih h
      exact ⟨(List.dropWhile_suffix _).subset ((List.drop_suffix _ _).subset this.1), this.2⟩

/-- The lines of a card are what is kept of lines in its block. -/
theorem exists_of_mem_cardsIn {room : Nat} {ls : List String} {c : Block × List String}
    (h : c ∈ cardsIn width room ls) :
    c.2 ≠ [] ∧ ∀ l ∈ c.2, ∃ line ∈ linesIn room ls, l = Line.keep width line := by
  induction room generalizing ls with
  | zero => cases h
  | succ room ih =>
    rcases List.mem_append.mp h with h | h
    · obtain ⟨lines, hlines, rfl⟩ := List.mem_map.mp h
      refine ⟨ne_nil_of_mem_divide hlines, fun l hl ↦ ?_⟩
      have hmem := List.mem_flatten_of_mem hlines hl
      rw [flatten_divide, List.nil_append] at hmem
      obtain ⟨line, hline, rfl⟩ := List.mem_map.mp hmem
      exact ⟨line, List.mem_append_left _ hline, rfl⟩
    · obtain ⟨hne, hall⟩ := ih h
      refine ⟨hne, fun l hl ↦ ?_⟩
      obtain ⟨line, hline, heq⟩ := hall l hl
      exact ⟨line, List.mem_append_right _ hline, heq⟩

/-- The cards of one block contribute to that block only. -/
theorem cardLines_map (b b' : Block) (cards : List (List String)) :
    cardLines b (cards.map (b', ·)) = if b' = b then cards.flatten else [] := by
  rw [cardLines, List.filter_map, List.flatMap_map]
  split_ifs with h
  · subst h
    simp [Function.comp_def]
  · simp [Function.comp_def, h]

/-- The lines in a block are those of the cards of that block. -/
theorem cardLines_blocks (b : Block) (cells surfaces data : List (List String)) :
    cardLines b (cells.map (Block.cell, ·) ++
      (surfaces.map (Block.surface, ·) ++ data.map (Block.data, ·))) = (match b with
        | .cell => cells
        | .surface => surfaces
        | .data => data).flatten := by
  have happend (xs ys : List (Block × List String)) :
      cardLines b (xs ++ ys) = cardLines b xs ++ cardLines b ys := by
    simp [cardLines]
  rw [happend, happend, cardLines_map, cardLines_map, cardLines_map]
  cases b <;> simp

/-- The lines of the cards in a block are what the lines of the block were divided into. -/
theorem cardLines_blockCards (b : Block) (cells surfaces data : List String) :
    cardLines b (blockCards width cells surfaces data) =
      ((match b with
        | .cell => cells
        | .surface => surfaces
        | .data => data).map (Line.keep width)) := by
  rw [blockCards, cardLines_blocks]
  cases b <;> exact flatten_divide

/-! ## The laid out deck -/

/-- Which file a card asks for depends on its lines only. -/
theorem target?_congr {c c' : Card} (h : c.lines = c'.lines) : c.target? = c'.target? := by
  obtain ⟨_, ls, _, _, _⟩ := c
  obtain ⟨_, ls', _, _, _⟩ := c'
  obtain rfl : ls = ls' := h
  rfl

/-- A line that is split off a text, and normalised, is plain. -/
theorem isPlain_of_mem_normalLines {options : ReadOptions} {text : List Char} {line : String}
    (h : line ∈ normalLines options text) : Line.IsPlain options.replaceNonAscii line := by
  obtain ⟨l, hl, rfl⟩ := List.mem_map.mp h
  exact Line.isPlain_normal (not_mem_of_mem_lines hl)

theorem mem_of_mem_frontOf {ls : List String} {line : String} (h : line ∈ (frontOf ls).2) :
    line ∈ ls := by
  cases ls with
  | nil => cases h
  | cons first rest =>
    rw [frontOf] at h
    split_ifs at h
    · exact (List.dropWhile_suffix _).subset ((List.drop_suffix _ _).subset h)
    · exact h

/-- A line that is written as it is and read as it was written. -/
structure IsSettled (replace : Bool) (line : String) : Prop where
  plain : Line.IsPlain replace line
  trimmed : trimEnd line.toList = line.toList

theorem isSettled_empty (replace : Bool) : IsSettled replace "" := ⟨Line.isPlain_empty replace, rfl⟩

/-- A plain line without the blanks at its end is read as it stands. -/
theorem isSettled_trimEndString {replace : Bool} {line : String} (h : Line.IsPlain replace line) :
    IsSettled replace (trimEndString line) where
  plain := h.of_isPrefix (by rw [trimEndString, String.toList_ofList]; exact trimEnd_isPrefix _)
  trimmed := by simp [trimEndString]

/-- What is kept of a plain line is read as it stands. -/
theorem isSettled_keep {replace : Bool} {line : String}
    (hwidth : Limits.continuationColumns < width) (h : Line.IsPlain replace line) :
    IsSettled replace (Line.keep width line) where
  plain := h.of_isPrefix (Line.keep_isPrefix width line)
  trimmed := (Line.isKept_keep hwidth line).trimmed

/-- A settled line is not blank unless it is empty. -/
theorem IsSettled.isBlank_eq {replace : Bool} {line : String} (h : IsSettled replace line)
    (hne : line ≠ "") : Line.isBlank line = false := by
  rw [Line.isBlank, ← h.trimmed]
  refine allBlank_trimEnd fun hnil ↦ hne ?_
  rw [h.trimmed] at hnil
  rw [← String.ofList_toList (s := line), hnil]

/-- Settled lines, written one below the other, are read as these lines. -/
theorem normalLines_unlines {options : ReadOptions} {ls : List String}
    (h : ∀ l ∈ ls, IsSettled options.replaceNonAscii l) :
    normalLines options (unlines ls).toList = ls := by
  rw [normalLines, lines_unlines fun l hl ↦
    ⟨(h l hl).plain.one_line, (h l hl).trimmed⟩, List.map_map]
  exact (List.map_congr_left fun l hl ↦ (h l hl).plain.normal_eq).trans (List.map_id _)

/-- The front of a deck is written in settled lines. -/
theorem isSettled_of_mem_frontLines {options : ReadOptions} {ls : List String} {line : String}
    (hls : ∀ l ∈ ls, Line.IsPlain options.replaceNonAscii l)
    (h : line ∈ frontLines (frontOf ls).1 (((frontOf ls).2.head?.map trimEndString).getD "")) :
    IsSettled options.replaceNonAscii line := by
  rcases List.mem_append.mp h with h | h
  · cases ls with
    | nil => cases h
    | cons first rest =>
      rw [frontOf] at h
      split_ifs at h
      · rcases List.mem_append.mp h with h | h
        · obtain ⟨l, hl, rfl⟩ := List.mem_map.mp h
          exact isSettled_trimEndString (hls l ((List.takeWhile_prefix _).subset hl))
        · obtain rfl := List.mem_singleton.mp h
          exact isSettled_empty _
      · cases h
  · obtain rfl := List.mem_singleton.mp h
    cases hhead : (frontOf ls).2.head? with
    | none => exact isSettled_empty _
    | some l =>
      exact isSettled_trimEndString (hls l (mem_of_mem_frontOf (List.mem_of_mem_head? hhead)))

/-- A line of the body is one of a block, or stands empty between two blocks. -/
theorem mem_bodyLines {cells surfaces data : List String} {terminated : Bool} {line : String}
    (h : line ∈ bodyLines cells surfaces data terminated) :
    line = "" ∨ line ∈ cells ++ surfaces ++ data := by
  have hseparator {needed : Bool} (h : line ∈ separator needed) : line = "" := by
    cases needed with
    | true => exact List.mem_singleton.mp h
    | false => cases h
  simp only [bodyLines, List.mem_append] at h ⊢
  rcases h with ((((h | h) | h) | h) | h) | h
  · exact .inr (.inl (.inl h))
  · exact .inl (hseparator h)
  · exact .inr (.inl (.inr h))
  · exact .inl (hseparator h)
  · exact .inr (.inr h)
  · exact .inl (hseparator h)

/-- What is kept of a line shows no more columns. -/
theorem isVertical_keep {line : String} (hwidth : Limits.continuationColumns < width)
    (hne : Line.keep width line ≠ "") (h : isVertical line = false) :
    isVertical (Line.keep width line) = false := by
  have hshort := Line.shortens_keep hwidth hne
  have hcomment := hshort.isComment_eq
  rw [String.ofList_toList, String.ofList_toList] at hcomment
  rw [isVertical, hcomment]
  cases hc : Line.isComment line with
  | true => rfl
  | false =>
    rw [isVertical, hc] at h
    simp only [Bool.not_false, Bool.true_and] at h ⊢
    rw [← Bool.not_eq_true, List.contains_iff_mem] at h ⊢
    intro hmem
    have := hshort.mem_firstColumns (c := '#')
    rw [String.ofList_toList, String.ofList_toList] at this
    exact h (this hmem)

end Reading

namespace RawDeck

open Reading

variable {options : ReadOptions} {files : Files.Source} {path text : String} {deck : RawDeck}
  {w : LineWidth}

theorem width_of_ofVersion {v : Version} (h : LineWidth.ofVersion v = .ok w) :
    v.width = .ok w.columns := by
  unfold LineWidth.ofVersion at h
  split at h
  · next columns hcolumns =>
    unfold LineWidth.of at h
    split_ifs at h
    obtain rfl := Except.ok.inj h
    exact hcolumns
  · cases h

/-- The lines of the blocks of a deck, and what its text becomes when it is laid out. -/
structure IsLaidOut (options : ReadOptions) (deck : RawDeck) (w : LineWidth)
    (cells surfaces data : List String) : Prop where
  cards_eq : deck.cards.map Card.shape = blockCards w.columns cells surfaces data
  horizontal : ∀ line ∈ cells ++ surfaces ++ data, isVertical line = false
  lines_eq : normalLines options (deck.deckText.layOut w).text.toList =
    frontLines deck.message (deck.title.getD "") ++
      bodyLines (cells.map (Line.keep w.columns)) (surfaces.map (Line.keep w.columns))
        (data.map (Line.keep w.columns)) deck.terminated
  front_eq (body : List String) : frontOf (frontLines deck.message (deck.title.getD "") ++ body) =
    (deck.message, deck.title.getD "" :: body)
  settled : ∀ line ∈ cells ++ surfaces ++ data,
    IsSettled options.replaceNonAscii (Line.keep w.columns line)
  title_settled : IsSettled options.replaceNonAscii (deck.title.getD "")
  message_solid : ∀ ls, deck.message = some ls → ∃ l ∈ ls, Line.isBlank l = false

/-- The lines of the cards that have been read fit. -/
theorem areWritten_of_ofText (h : ofText options files path text = .ok deck)
    (hown : ∀ c ∈ deck.cards, c.target? = none) (hw : LineWidth.ofVersion options.version = .ok w) :
    AreWritten w.columns (deck.cards.map Card.shape) := fun c hc ↦ by
  obtain ⟨-, hdeck⟩ := isDeckOf_of_ofText (width_of_ofVersion hw) h hown
  rw [hdeck.cards_eq] at hc
  obtain ⟨hne, hlines⟩ := exists_of_mem_cardsIn hc
  refine ⟨hne, fun l hl ↦ ?_⟩
  obtain ⟨line, hline, rfl⟩ := hlines l hl
  have hread := mem_of_mem_frontOf ((List.drop_suffix _ _).subset (mem_linesIn hline).1)
  exact ⟨((isPlain_of_mem_normalLines hread).of_isPrefix (Line.keep_isPrefix _ _)).one_line,
    (Line.isKept_keep w.room line).fits⟩

/-- A deck that was read is laid out in lines of its blocks, each kept to the width. -/
theorem exists_isLaidOut (h : ofText options files path text = .ok deck)
    (hown : ∀ c ∈ deck.cards, c.target? = none) (hw : LineWidth.ofVersion options.version = .ok w) :
    ∃ cells surfaces data, IsLaidOut options deck w cells surfaces data := by
  have hwritten := areWritten_of_ofText h hown hw
  obtain ⟨hread, hdeck⟩ := isDeckOf_of_ofText (width_of_ofVersion hw) h hown
  have hplain : ∀ l ∈ normalLines options text.toList, Line.IsPlain options.replaceNonAscii l :=
    fun l hl ↦ isPlain_of_mem_normalLines hl
  generalize normalLines options text.toList = ls at hread hdeck hplain
  obtain ⟨hmessage, htitle, hcards⟩ := hdeck
  have hbodyPlain : ∀ l ∈ linesIn Limits.blocks ((frontOf ls).2.drop 1),
      Line.IsPlain options.replaceNonAscii l := fun l hl ↦
    hplain l (mem_of_mem_frontOf ((List.drop_suffix _ _).subset (mem_linesIn hl).1))
  have hhorizontal := hread.horizontal
  rw [cardsIn_blocks] at hcards
  have hlinesIn : linesIn Limits.blocks ((frontOf ls).2.drop 1) =
      inBlock ((frontOf ls).2.drop 1) ++ inBlock (behind ((frontOf ls).2.drop 1)) ++
        inBlock (behind (behind ((frontOf ls).2.drop 1))) := by
    change _ ++ (_ ++ (_ ++ [])) = _
    rw [List.append_nil, List.append_assoc]
  rw [hlinesIn] at hhorizontal hbodyPlain
  generalize inBlock ((frontOf ls).2.drop 1) = cells at *
  generalize inBlock (behind ((frontOf ls).2.drop 1)) = surfaces at *
  generalize inBlock (behind (behind ((frontOf ls).2.drop 1))) = data at *
  have hsettled : ∀ line ∈ cells ++ surfaces ++ data,
      IsSettled options.replaceNonAscii (Line.keep w.columns line) :=
    fun line hline ↦ isSettled_keep w.room (hbodyPlain line hline)
  have hfront : ∀ l ∈ frontLines deck.message (deck.title.getD ""),
      IsSettled options.replaceNonAscii l := fun l hl ↦ by
    rw [hmessage, htitle] at hl
    exact isSettled_of_mem_frontLines hplain hl
  refine ⟨cells, surfaces, data, hcards, hhorizontal, ?_, fun body ↦ ?_, hsettled, ?_, ?_⟩
  · rw [text_layOut hwritten, hcards, cardLines_blockCards,
      cardLines_blockCards, cardLines_blockCards]
    refine normalLines_unlines fun l hl ↦ ?_
    rcases List.mem_append.mp hl with hl | hl
    · exact hfront l hl
    · rcases mem_bodyLines hl with rfl | hl
      · exact isSettled_empty _
      · rw [← List.map_append, ← List.map_append] at hl
        obtain ⟨line, hline, rfl⟩ := List.mem_map.mp hl
        exact hsettled line hline
  · rw [hmessage, htitle]
    exact frontOf_frontLines ls body
  · exact hfront _ (List.mem_append_right _ (List.mem_singleton_self _))
  · intro m hm
    rw [hmessage] at hm
    cases ls with
    | nil => cases hm
    | cons first rest =>
      rw [frontOf] at hm
      split_ifs at hm with hopens
      · obtain rfl := Option.some.inj hm
        have hsolid := isBlank_of_opensMessage hopens
        refine ⟨trimEndString first, List.mem_map_of_mem ?_, ?_⟩
        · rw [inBlock, List.takeWhile_cons, hsolid]
          exact List.mem_cons_self
        · rw [isBlank_trimEndString, hsolid]

namespace IsLaidOut

variable {cells surfaces data : List String}

/-- The lines behind the title. -/
theorem drop_front (h : IsLaidOut options deck w cells surfaces data) :
    (frontOf (normalLines options (deck.deckText.layOut w).text.toList)).2.drop 1 =
      bodyLines (cells.map (Line.keep w.columns)) (surfaces.map (Line.keep w.columns))
        (data.map (Line.keep w.columns)) deck.terminated := by
  rw [h.lines_eq, h.front_eq, List.drop_one, List.tail_cons]

/-- A line behind the title is empty or what was kept of a line. -/
theorem exists_of_mem_linesIn (h : IsLaidOut options deck w cells surfaces data) {line : String}
    (hline : line ∈ linesIn Limits.blocks
      ((frontOf (normalLines options (deck.deckText.layOut w).text.toList)).2.drop 1)) :
    line ≠ "" ∧ ∃ read ∈ cells ++ surfaces ++ data, line = Line.keep w.columns read := by
  rw [h.drop_front] at hline
  obtain ⟨hmem, hsolid⟩ := mem_linesIn hline
  have hne : line ≠ "" := fun hempty ↦ by
    rw [hempty] at hsolid
    cases hsolid
  rcases mem_bodyLines hmem with hempty | hmem
  · exact absurd hempty hne
  · rw [← List.map_append, ← List.map_append] at hmem
    obtain ⟨read, hread, rfl⟩ := List.mem_map.mp hmem
    exact ⟨hne, read, hread, rfl⟩

/-- What was kept of a line belongs to a card. -/
theorem exists_card (h : IsLaidOut options deck w cells surfaces data) {line : String}
    (hline : line ∈ cells ++ surfaces ++ data) :
    ∃ c ∈ deck.cards, Line.keep w.columns line ∈ c.lines := by
  have hcard (b : Block)
    (hmem : Line.keep w.columns line ∈ cardLines b (deck.cards.map Card.shape)) :
      ∃ c ∈ deck.cards, Line.keep w.columns line ∈ c.lines := by
    obtain ⟨shape, hshape, hmem⟩ := List.mem_flatMap.mp hmem
    obtain ⟨c, hc, rfl⟩ := List.mem_map.mp (List.mem_of_mem_filter hshape)
    exact ⟨c, hc, hmem⟩
  rw [h.cards_eq] at hcard
  rcases List.mem_append.mp hline with hline | hline
  · rcases List.mem_append.mp hline with hline | hline
    · exact hcard .cell (by rw [cardLines_blockCards]; exact List.mem_map_of_mem hline)
    · exact hcard .surface (by rw [cardLines_blockCards]; exact List.mem_map_of_mem hline)
  · exact hcard .data (by rw [cardLines_blockCards]; exact List.mem_map_of_mem hline)

/-- No line of a block is vertical. -/
theorem horizontal_kept (h : IsLaidOut options deck w cells surfaces data) :
    ∀ line ∈ linesIn Limits.blocks
      ((frontOf (normalLines options (deck.deckText.layOut w).text.toList)).2.drop 1),
    isVertical line = false := fun line hline ↦ by
  obtain ⟨hne, read, hread, rfl⟩ := h.exists_of_mem_linesIn hline
  exact isVertical_keep w.room hne (h.horizontal read hread)

variable (h : IsLaidOut options deck w cells surfaces data)
  (hsolid : ∀ c ∈ deck.cards, "" ∉ c.lines)
include h hsolid

/-- No line of a card is cut to nothing. -/
theorem keep_ne_empty : ∀ line ∈ cells ++ surfaces ++ data, Line.keep w.columns line ≠ "" :=
  fun line hline hempty ↦ by
    obtain ⟨c, hc, hmem⟩ := h.exists_card hline
    exact hsolid c hc (hempty ▸ hmem)

/-- The lines of the laid out deck are divided into its cards again. -/
theorem cardsIn_kept : cardsIn w.columns Limits.blocks
      ((frontOf (normalLines options (deck.deckText.layOut w).text.toList)).2.drop 1) =
    deck.cards.map Card.shape := by
  have hkeep := h.keep_ne_empty hsolid
  have hblank : ∀ line ∈ cells ++ surfaces ++ data,
      Line.isBlank (Line.keep w.columns line) = false :=
    fun line hline ↦ (h.settled line hline).isBlank_eq (hkeep line hline)
  simp only [List.mem_append, or_imp, forall_and] at hkeep hblank
  rw [h.drop_front, cardsIn_bodyLines, h.cards_eq, blockCards, blockCards,
    divide_map_keep w.room hkeep.1.1, divide_map_keep w.room hkeep.1.2,
    divide_map_keep w.room hkeep.2]
  · exact List.forall_mem_map.mpr hblank.1.1
  · exact List.forall_mem_map.mpr hblank.1.2
  · exact List.forall_mem_map.mpr hblank.2

/-- The laid out deck has content if the deck has. -/
theorem content_kept (hcontent : deck.message ≠ none ∨ deck.title.getD "" ≠ "" ∨ deck.cards ≠ []) :
    (normalLines options (deck.deckText.layOut w).text.toList).all Line.isBlank = false := by
  rw [← Bool.not_eq_true, List.all_eq_true]
  intro hall
  rcases hcontent with hmessage | htitle | hcards
  · obtain ⟨m, hm⟩ := Option.ne_none_iff_exists'.mp hmessage
    obtain ⟨l, hl, hlsolid⟩ := h.message_solid m hm
    have hmem : l ∈ normalLines options (deck.deckText.layOut w).text.toList := by
      rw [h.lines_eq, hm]
      simp [frontLines, hl]
    rw [hall l hmem] at hlsolid
    cases hlsolid
  · have hmem : deck.title.getD "" ∈ normalLines options (deck.deckText.layOut w).text.toList := by
      rw [h.lines_eq]
      simp [frontLines]
    have := h.title_settled.isBlank_eq htitle
    rw [hall _ hmem] at this
    cases this
  · obtain ⟨c, hc⟩ := List.exists_mem_of_ne_nil _ hcards
    have hshape : c.shape ∈ deck.cards.map Card.shape := List.mem_map_of_mem hc
    rw [← h.cardsIn_kept hsolid] at hshape
    obtain ⟨hne, hlines⟩ := exists_of_mem_cardsIn hshape
    obtain ⟨l, hl⟩ := List.exists_mem_of_ne_nil _ hne
    obtain ⟨line, hline, -⟩ := hlines l hl
    obtain ⟨hmem, hlsolid⟩ := mem_linesIn hline
    rw [hall line (mem_of_mem_frontOf ((List.drop_suffix _ _).subset hmem))] at hlsolid
    cases hlsolid

end IsLaidOut

/-- A deck that asks for no other file, laid out as it is, reads as itself exactly if no card has
kept an empty line, it has a title, and it has anything at all. -/
theorem reread_iff (h : ofText options files path text = .ok deck)
    (hown : ∀ c ∈ deck.cards, c.target? = none) (hw : LineWidth.ofVersion options.version = .ok w) :
    (∃ deck', ofText options files path (deck.deckText.layOut w).text = .ok deck' ∧
      deck'.message = deck.message ∧ deck'.title = deck.title ∧
      deck'.cards.map Card.shape = deck.cards.map Card.shape) ↔
    (∀ c ∈ deck.cards, "" ∉ c.lines) ∧ deck.title ≠ none ∧
      (deck.message ≠ none ∨ deck.title ≠ some "" ∨ deck.cards ≠ []) := by
  obtain ⟨cells, surfaces, data, hlaid⟩ := exists_isLaidOut h hown hw
  have hwidth := width_of_ofVersion hw
  have htargets (c : Card) (hc : c.shape ∈ deck.cards.map Card.shape) : c.target? = none := by
    obtain ⟨c', hc', heq⟩ := List.mem_map.mp hc
    rw [← hown c' hc']
    exact target?_congr (congrArg Prod.snd heq).symm
  constructor
  · rintro ⟨deck', hdeck', hmessage, htitle, hcards⟩
    have hown' : ∀ c ∈ deck'.cards, c.target? = none := fun c hc ↦
      htargets c (hcards ▸ List.mem_map_of_mem hc)
    obtain ⟨hread, hdeck⟩ := isDeckOf_of_ofText hwidth hdeck' hown'
    refine ⟨fun c hc hempty ↦ ?_, ?_, ?_⟩
    · have hmem : c.shape ∈ deck'.cards.map Card.shape := hcards ▸ List.mem_map_of_mem hc
      rw [hdeck.cards_eq] at hmem
      obtain ⟨line, hline, heq⟩ := (exists_of_mem_cardsIn hmem).2 "" hempty
      obtain ⟨hne, read, -, rfl⟩ := hlaid.exists_of_mem_linesIn hline
      rw [Line.keep_keep w.room] at heq
      exact hne heq.symm
    · rw [← htitle, hdeck.title_eq, hlaid.lines_eq, hlaid.front_eq]
      exact Option.some_ne_none _
    · by_contra hnone
      simp only [not_or, not_not] at hnone
      obtain ⟨hmessage, htitle, hnil⟩ := hnone
      have hkept (b : Block) : cardLines b (blockCards w.columns cells surfaces data) = _ :=
        cardLines_blockCards b cells surfaces data
      rw [← hlaid.cards_eq, hnil] at hkept
      have hcontent := hread.content
      rw [hlaid.lines_eq, ← hkept .cell, ← hkept .surface, ← hkept .data,
        hmessage, htitle] at hcontent
      generalize deck.terminated = terminated at hcontent
      cases terminated <;> cases hcontent
  · rintro ⟨hsolid, htitle, hcontent⟩
    have hgetD : some (deck.title.getD "") = deck.title := by
      obtain ⟨t, ht⟩ := Option.ne_none_iff_exists'.mp htitle
      rw [ht]
      rfl
    refine exists_ofText hwidth ⟨hlaid.content_kept hsolid ?_, hlaid.horizontal_kept⟩
      ⟨?_, ?_, (hlaid.cardsIn_kept hsolid).symm⟩ htargets
    · refine hcontent.imp_right (Or.imp_left fun hne hempty ↦ hne ?_)
      rw [← hgetD, hempty]
    · rw [hlaid.lines_eq, hlaid.front_eq]
    · rw [hlaid.lines_eq, hlaid.front_eq, ← hgetD]
      simp [trimEndString, hlaid.title_settled.trimmed]

/-- A deck with a comment, a line that continues another and an empty block is read again as it
was. -/
theorem reread_of_empty_block : ∃ (options : ReadOptions) (files : Files.Source) (text : String)
    (deck : RawDeck) (w : LineWidth), ofText options files "deck" text = .ok deck ∧
      (∀ c ∈ deck.cards, c.target? = none) ∧ LineWidth.ofVersion options.version = .ok w ∧
      ∃ deck', ofText options files "deck" (deck.deckText.layOut w).text = .ok deck' ∧
        deck'.message = deck.message ∧ deck'.title = deck.title ∧
        deck'.cards.map Card.shape = deck.cards.map Card.shape := by
  let deck : RawDeck := ⟨none, some "t", [⟨.cell, ["c a", "1 0 -1", "        2"], "deck", 2, 0⟩,
    ⟨.data, ["nps 1"], "deck", 7, 0⟩], [], true⟩
  have hdeck : ofText ⟨.standard, true⟩ (fun _ ↦ .error .notFound) "deck"
      "t  \nc a\n1 0 -1\n\t2\n\n \nnps 1\n\n" = .ok deck := by decide +kernel
  have hown : ∀ c ∈ deck.cards, c.target? = none := by decide +kernel
  have hw : LineWidth.ofVersion Version.standard = .ok ⟨128, by decide⟩ := by rfl
  exact ⟨_, _, _, deck, _, hdeck, hown, hw, (reread_iff hdeck hown hw).mpr (by decide +kernel)⟩

/-- A line of blanks up to the width keeps nothing, and the card behind it gets into the next
block. -/
theorem reread_ne_of_blank_columns :
    ∃ (options : ReadOptions) (files : Files.Source) (text : String) (w : LineWidth)
      (deck deck' : RawDeck), LineWidth.ofVersion options.version = .ok w ∧
      ofText options files "deck" text = .ok deck ∧
      (∀ c ∈ deck.cards, c.target? = none) ∧
      ofText options files "deck" (deck.deckText.layOut w).text = .ok deck' ∧
      deck'.cards.map Card.shape ≠ deck.cards.map Card.shape := by
  let options : ReadOptions := ⟨.standard, true⟩
  let files : Files.Source := fun _ ↦ .error .notFound
  let overrun : Warning := (Warning.of .lineOverrun
    "Line exceeds 128 columns for version 6.3.0 and was truncated").inFile "deck" 3
  let deck : RawDeck := ⟨none, some "t", [⟨.cell, ["1 0 -1", ""], "deck", 2, 0⟩,
    ⟨.cell, ["2 0 1"], "deck", 4, 0⟩], [overrun], false⟩
  let deck' : RawDeck := ⟨none, some "t", [⟨.cell, ["1 0 -1"], "deck", 2, 0⟩,
    ⟨.surface, ["2 0 1"], "deck", 4, 0⟩], [], false⟩
  refine ⟨options, files, "t\n1 0 -1\n" ++ Text.spaces 128 ++ "2\n2 0 1\n",
    ⟨128, by decide⟩, deck, deck',
    rfl, ?_, ?_, ?_, ?_⟩ <;> decide +kernel

end RawDeck

end TransportDeck
