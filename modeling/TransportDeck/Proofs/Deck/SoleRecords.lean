import TransportDeck.Proofs.Deck.LineStarts
import TransportDeck.Proofs.Deck.Replacement

/-!
# Decks of one record

The lines of a record that is read alone are all kept, and none starts another record.  So they stay
one record when its last line goes on, as long as that fits.
-/

namespace TransportDeck

open Text Line

namespace Reading

/-- A deck that has a title and one record, a cell. -/
def soleText (record : String) : String := "t\n" ++ record ++ "\n"

/-- A deck that has a title and one record, behind two blocks without any. -/
def soleDataText (record : String) : String := "t\n\n\n" ++ record ++ "\n"

/-- The lines of a deck that has one record, in this block. -/
def soleLines (b : Block) (ls : List String) : List String :=
  "t" :: (List.replicate b.index "" ++ ls)

variable {options : ReadOptions} {width : Nat} {ls : List String} {files : Files.Source}
  {path : String} {b : Block}

theorem soleText_eq (hne : ls ≠ []) :
    soleText ("\n".intercalate ls) = unlines (soleLines .cell ls) := by
  rw [soleText, String.append_assoc, intercalate_append_eq_unlines hne, soleLines, unlines_cons]
  rfl

theorem soleDataText_eq (hne : ls ≠ []) :
    soleDataText ("\n".intercalate ls) = unlines (soleLines .data ls) := by
  rw [soleDataText, String.append_assoc, intercalate_append_eq_unlines hne, soleLines, unlines_cons,
    unlines_append, ← String.append_assoc]
  rfl

theorem isFront_sole (options : ReadOptions) : IsFront options none "t" where
  settled l hl := by
    obtain rfl := List.mem_singleton.mp hl
    exact ⟨⟨by decide, by decide, fun _ ↦ by decide⟩, by decide⟩
  front_eq _ := rfl

/-- The lines of a record that is the only one of its deck. -/
structure IsSole (options : ReadOptions) (width : Nat) (ls : List String) : Prop where
  lines : AreLines options width ls
  kept : ∀ l ∈ ls, keep width l = l
  division : IsDivision width [ls]

/-! ## Blocks in front -/

/-- The cards of the last blocks are in none of the others. -/
theorem index_of_mem_cardsIn {room : Nat} (hroom : room ≤ Limits.blocks) {c : Block × List String}
    (h : c ∈ cardsIn width room ls) : Limits.blocks - room ≤ c.1.index := by
  have hblocks : Limits.blocks = 3 := rfl
  rw [hblocks] at hroom ⊢
  induction room generalizing ls with
  | zero => cases h
  | succ room ih =>
    rcases List.mem_append.mp h with h | h
    · obtain ⟨group, -, rfl⟩ := List.mem_map.mp h
      have hindex : ∀ k ≤ 2, (Block.ofIndex k).index = k := by decide
      rw [hindex (2 - room) (by omega)]
      omega
    · have := ih (by omega) h
      omega

/-- Blocks without records are passed over. -/
theorem cardsIn_soleLines (b : Block) (ls : List String) :
    cardsIn width Limits.blocks (List.replicate b.index "" ++ ls) =
      (divide width false false [] (inBlock ls)).map (b, ·) ++ cardsIn width (2 - b.index)
        (behind ls) := by
  cases b <;> rfl

theorem linesIn_soleLines (b : Block) (ls : List String) :
    linesIn Limits.blocks (List.replicate b.index "" ++ ls) = inBlock ls ++ linesIn (2 - b.index)
      (behind ls) := by
  cases b <;> rfl

/-- What is read as one record are the lines of one. -/
theorem isSole_of_ofText (hwidth : options.version.width = .ok width) {deck : RawDeck}
    (h : RawDeck.ofText options files path (unlines (soleLines b ls)) = .ok deck)
    (hcards : deck.cards.map Card.shape = [(b, ls)]) (hown : ∀ c ∈ deck.cards, c.target? = none) :
    IsSole options width ls := by
  have hcolumns := continuationColumns_lt_width hwidth
  obtain ⟨hread, hdeck⟩ := isDeckOf_of_ofText hwidth h hown
  have hmem := hdeck.cards_eq
  rw [hcards] at hmem
  have hlines := (exists_of_mem_cardsIn (hmem ▸ List.mem_singleton_self (b, ls))).2
  have hsettled : ∀ l ∈ ls, IsSettled options.replaceNonAscii l := fun l hl ↦ by
    obtain ⟨line, hline, rfl⟩ := hlines l hl
    exact isSettled_keep hcolumns (isPlain_of_mem_normalLines
      (mem_of_mem_frontOf ((List.drop_suffix _ _).subset (mem_linesIn hline).1)))
  have hkept : ∀ l ∈ ls, keep width l = l := fun l hl ↦ by
    obtain ⟨line, -, rfl⟩ := hlines l hl
    exact keep_keep hcolumns line
  have hnormal : normalLines options (unlines (soleLines b ls)).toList = soleLines b ls := by
    have htitle := (isFront_sole options).settled "t" (List.mem_singleton_self _)
    refine normalLines_unlines
      (List.forall_mem_cons.mpr ⟨htitle, List.forall_mem_append.mpr ⟨fun l hl ↦ ?_, hsettled⟩⟩)
    rw [List.eq_of_mem_replicate hl]
    exact ⟨⟨by decide, by decide, fun _ ↦ by decide⟩, by decide⟩
  have hbody : (frontOf (soleLines b ls)).2.drop 1 = List.replicate b.index "" ++ ls := by
    cases b <;> rfl
  have hhorizontal := hread.horizontal
  rw [hnormal, hbody] at hmem hhorizontal
  rw [cardsIn_soleLines] at hmem
  have hdivide : divide width false false [] (inBlock ls) = [ls] := by
    cases hgroups : divide width false false [] (inBlock ls) with
    | nil =>
      rw [hgroups] at hmem
      have hroom : 2 - b.index ≤ Limits.blocks := (Nat.sub_le _ _).trans (by decide)
      have hindex : Limits.blocks - (2 - b.index) ≤ b.index :=
        index_of_mem_cardsIn hroom (hmem ▸ List.mem_singleton_self (b, ls))
      cases b <;> exact absurd hindex (by decide)
    | cons group groups =>
      rw [hgroups] at hmem
      obtain ⟨hfirst, hrest⟩ := List.cons.inj hmem
      obtain rfl : ls = group := congrArg Prod.snd hfirst
      have hnil := (List.append_eq_nil_iff.mp hrest.symm).1
      rw [List.map_eq_nil_iff.mp hnil]
  -- No line is blank: the block has as many lines as the record.
  have hin : inBlock ls = ls := by
    have hall : ls = (inBlock ls).map (keep width) := by
      have hflatten : (divide width false false [] (inBlock ls)).flatten =
          [] ++ (inBlock ls).map (keep width) :=
        flatten_divide
      rw [hdivide] at hflatten
      simpa using hflatten
    refine (List.takeWhile_prefix _).eq_of_length ?_
    have hlength := congrArg List.length hall
    rw [List.length_map] at hlength
    exact hlength.symm
  rw [hin] at hdivide
  refine ⟨⟨fun l hl ↦ (hsettled l hl).plain, fun l hl ↦ ?_, fun l hl ↦ ?_⟩,
    hkept, isDivision_divide ?_ ?_⟩
  · have hblank := isBlank_of_mem_inBlock (hin.symm ▸ hl)
    rw [hkept l hl]
    rintro rfl
    cases hblank
  · refine hhorizontal l ?_
    rw [linesIn_soleLines]
    exact List.mem_append_left _ (hin.symm ▸ hl)
  · simpa using hkept
  · simpa using hdivide

/-- The lines of one record are read as it. -/
theorem IsSole.exists_ofText (h : IsSole options width ls) (files : Files.Source) (path : String)
    (b : Block) (hwidth : options.version.width = .ok width)
    (hown : ∀ c : Card, c.shape = (b, ls) → c.target? = none) :
    ∃ deck, RawDeck.ofText options files path (unlines (soleLines b ls)) = .ok deck ∧
      deck.cards.map Card.shape = [(b, ls)] := by
  have hne : ls ≠ [] := h.division.1
  have hself : ls.map (keep width) = ls := (List.map_congr_left h.kept).trans (List.map_id' ls)
  have hdivide := divide_of_isDivision h.division
  rw [List.flatten_cons, List.flatten_nil, List.append_nil, List.map_singleton, hself] at hdivide
  -- The lines stand in their block, and the others have none.
  let linesOf (b' : Block) : List String := if b' = b then ls else []
  have hlines (b' : Block) : AreLines options width (linesOf b') := by
    change AreLines options width (if b' = b then ls else [])
    split_ifs
    · exact h.lines
    · exact ⟨by simp, by simp, by simp⟩
  have hbody : frontLines none "t" ++ bodyLines (linesOf .cell)
    (linesOf .surface) (linesOf .data) false =
      soleLines b ls := by
    have hisEmpty : ls.isEmpty = false := by simpa using hne
    cases b <;> simp [linesOf, frontLines, bodyLines, separator, soleLines, hisEmpty, Block.index]
  have hblocks :
    blockCards width ((linesOf .cell).map (keep width)) ((linesOf .surface).map (keep width))
      ((linesOf .data).map (keep width)) = [(b, ls)] := by
    have hnone : divide width false false [] [] = [] := rfl
    cases b <;> simp [linesOf, blockCards, hself, hdivide, hnone]
  obtain ⟨deck, hdeck, -, -, hcards⟩ :=
    exists_ofText_of_lines files path hwidth (isFront_sole options) (hlines .cell) (hlines .surface)
      (hlines .data) (by cases b <;> simpa [linesOf] using hne) false fun c hc ↦
      hown c (List.mem_singleton.mp (hblocks ▸ hc))
  exact ⟨deck, hbody ▸ hdeck, hcards.trans hblocks⟩

/-! ## Lines that go on -/

/-- What may be put behind the last line of a record: it keeps the line in its record, and in its
width. -/
structure GoesOn (width : Nat) (line : String) (rest : List Char) : Prop where
  code : isComment line = false
  apart : Lexer.Apart line.toList rest
  plain : ∀ c ∈ rest, c ≠ '\n' ∧ c ≠ '\t' ∧ c ≠ '#' ∧ isAscii c = true
  solid : ∃ c ∈ rest.getLast?, Text.isBlank c = false ∧ c ≠ '&'
  fits : line.toList.length + rest.length ≤ width

namespace GoesOn

variable {line : String} {rest : List Char} (h : GoesOn width line rest)
include h

theorem isKept : IsKept width (String.ofList (line.toList ++ rest)) where
  trimmed := by
    obtain ⟨c, hc, hblank, -⟩ := h.solid
    obtain ⟨cs, rfl⟩ := List.getLast?_eq_some_iff.mp hc
    rw [String.toList_ofList, ← List.append_assoc]
    exact List.rdropWhile_concat_neg _ _ _ (by simp [hblank])
  fits := by
    left
    rw [String.toList_ofList, List.length_append]
    exact h.fits

theorem asksForMore_eq : asksForMore (String.ofList (line.toList ++ rest)) = false := by
  obtain ⟨c, hc, -, hmark⟩ := h.solid
  obtain ⟨cs, rfl⟩ := List.getLast?_eq_some_iff.mp hc
  rw [asksForMore, String.toList_ofList, ← List.append_assoc, List.reverse_concat]
  split
  · next heq => exact absurd (List.cons.inj heq).1 hmark
  · rfl

theorem isPlain {replace : Bool} (hplain : IsPlain replace line) :
    IsPlain replace (String.ofList (line.toList ++ rest)) where
  one_line hmem := by
    rw [String.toList_ofList, List.mem_append] at hmem
    exact hmem.elim hplain.one_line fun hmem ↦ (h.plain _ hmem).1 rfl
  no_tab hmem := by
    rw [String.toList_ofList, List.mem_append] at hmem
    exact hmem.elim hplain.no_tab fun hmem ↦ (h.plain _ hmem).2.1 rfl
  ascii hreplace := by
    rw [String.toList_ofList, List.all_append, hplain.ascii hreplace,
      Bool.true_and, List.all_eq_true]
    exact fun c hc ↦ (h.plain c hc).2.2.2

theorem isComment_eq (hsolid : Line.isBlank line = false) :
    isComment (String.ofList (line.toList ++ rest)) = false := by
  rw [isComment_append hsolid h.apart, String.ofList_toList, h.code]

theorem isVertical_eq (hsolid : Line.isBlank line = false) (hvertical : isVertical line = false) :
    isVertical (String.ofList (line.toList ++ rest)) = false := by
  rw [isVertical, h.code] at hvertical
  rw [isVertical, h.isComment_eq hsolid]
  simp only [Bool.not_false, Bool.true_and] at hvertical ⊢
  rw [← Bool.not_eq_true, List.contains_iff_mem] at hvertical ⊢
  intro hmem
  rw [firstColumns, String.toList_ofList, List.take_append, List.mem_append] at hmem
  exact hmem.elim hvertical fun hmem ↦ (h.plain _ (List.mem_of_mem_take hmem)).2.2.1 rfl

theorem condenses (hsolid : Line.isBlank line = false) :
    Condenses [line] (String.ofList (line.toList ++ rest)) where
  exists_head := by
    refine ⟨line, [], rfl, h.code, ?_⟩
    rw [allBlank_firstColumns_append hsolid, String.ofList_toList]
  code := h.isComment_eq hsolid

end GoesOn

/-- A record stays one when its last line goes on. -/
theorem IsSole.concat {line : String} {rest : List Char} (h : IsSole options width (ls ++ [line]))
    (hgoes : GoesOn width line rest) :
    IsSole options width (ls ++ [String.ofList (line.toList ++ rest)]) := by
  have hmem : line ∈ ls ++ [line] := List.mem_append_right _ (List.mem_singleton_self _)
  have hsolid : Line.isBlank line = false := isBlank_of_keep_ne (h.lines.solid line hmem)
  have hkeep := hgoes.isKept.keep_eq
  have hnew : AreLines options width [String.ofList (line.toList ++ rest)] := by
    refine ⟨?_, ?_, ?_⟩ <;> rw [List.forall_mem_singleton]
    · exact hgoes.isPlain (h.lines.plain line hmem)
    · rw [hkeep]
      intro hempty
      obtain ⟨c, hc, -⟩ := hgoes.solid
      have hlist := congrArg String.toList hempty
      rw [String.toList_ofList] at hlist
      obtain ⟨-, rfl⟩ := List.append_eq_nil_iff.mp hlist
      cases hc
    · exact hgoes.isVertical_eq hsolid (h.lines.horizontal line hmem)
  refine ⟨(h.lines.of_subset (List.subset_append_left _ _)).append hnew, ?_, ?_⟩
  · rw [List.forall_mem_append, List.forall_mem_singleton]
    exact ⟨fun l hl ↦ h.kept l (List.mem_append_left _ hl), hkeep⟩
  · have hdivision : IsDivision width ([] ++ (ls ++ ([line] ++ [])) :: []) := h.division
    refine isDivision_replace (hgoes.condenses hsolid) (.inr ⟨rfl, ?_⟩) hdivision
    rw [hkeep]
    exact hgoes.asksForMore_eq

end Reading

/-! ## Cards -/

namespace Card

variable {card card' : Card} {ls : List String} {line line' : String}

/-- Whether a card asks for another file does not depend on how its last line goes on. -/
theorem isRead_concat (h : card.lines = ls ++ [line]) (h' : card'.lines = ls ++ [line'])
    (hcode : Line.isComment line' = Line.isComment line)
    (hopens : opensRead line' = opensRead line) : card'.isRead = card.isRead := by
  rw [isRead_eq, isRead_eq, codeLines, codeLines, h, h', List.filter_append, List.filter_append,
    List.filter_singleton, List.filter_singleton, hcode]
  cases ls.filter (!Line.isComment ·) with
  | cons l ls => rfl
  | nil => cases Line.isComment line <;> simp [hopens]

theorem opensRead_spaced (line : String) (n : Nat) :
    opensRead (Line.spaced line n) = opensRead line := by
  cases hline : allBlank line.toList with
  | true =>
    have hnone {cs : List Char} (h : allBlank cs = true) :
        opensRead (String.ofList cs) = false := by
      rw [opensRead, String.toList_ofList, head?_words,
        if_pos (List.dropWhile_eq_nil_iff.mpr (List.all_eq_true.mp h))]
      rfl
    have hspaced : allBlank (line.toList ++ List.replicate n ' ') = true := by
      rw [allBlank_append, hline, allBlank_replicate]
      rfl
    rw [Line.spaced, hnone hspaced, ← String.ofList_toList (s := line), hnone hline]
  | false =>
    have happart : Lexer.Apart line.toList (List.replicate n ' ') := .inl (by cases n <;> rfl)
    rw [Line.spaced, opensRead_append hline happart, String.ofList_toList]

end Card

namespace Reading

section

variable {options : ReadOptions} {width n : Nat} {ls : List String} {line : String}
  {rest : List Char} {files : Files.Source} {path : String} {b : Block} {card : Card}

/-- A card that is read alone, up to the spaces at its end, is the only one of a deck. -/
theorem isSole_of_card (hwidth : options.version.width = .ok width)
    (hlines : card.lines = ls ++ [Line.spaced line n]) (hread : card.isRead = false)
    {deck : RawDeck}
    (h : RawDeck.ofText options files path (unlines (soleLines b (ls ++ [line]))) = .ok deck)
    (hcards : deck.cards.map Card.shape = [(b, ls ++ [line])]) :
    IsSole options width (ls ++ [line]) := by
  refine isSole_of_ofText hwidth h hcards fun c hc ↦ ?_
  have hcard : c.lines = ls ++ [line] := by
    have hshape := List.mem_map_of_mem (f := Card.shape) hc
    rw [hcards] at hshape
    exact congrArg Prod.snd (List.mem_singleton.mp hshape)
  have hnone : c.isRead = false := (Card.isRead_concat hlines hcard (isComment_spaced line n).symm
    (Card.opensRead_spaced line n).symm).trans hread
  rw [Card.target?, hnone, if_neg Bool.false_ne_true]

/-- A card that is the only one goes on with a text, and nothing else is read. -/
theorem IsSole.exists_ofText_concat (h : IsSole options width (ls ++ [line]))
    (hwidth : options.version.width = .ok width) (hlines : card.lines = ls ++ [Line.spaced line n])
    (hread : card.isRead = false) (hgoes : GoesOn width line (List.replicate n ' ' ++ rest))
    (files : Files.Source) (path : String) (b : Block) : ∃ new deck card', new ≠ [] ∧
      "\n".intercalate new = card.text ++ String.ofList rest ∧
      RawDeck.ofText options files path (unlines (soleLines b new)) = .ok deck ∧ deck.cards =
      [card'] ∧ card'.block = b ∧ card'.text = card.text ++ String.ofList rest ∧
      card'.isRead = false := by
  have hline : Line.isBlank line = false := isBlank_of_keep_ne (h.lines.solid line (by simp))
  have htext :
    "\n".intercalate (ls ++ [String.ofList (line.toList ++ (List.replicate n ' ' ++ rest))]) =
      card.text ++ String.ofList rest := by
    rw [Card.text, hlines, Line.spaced, ← List.append_assoc, ← intercalate_concat_append]
    simp
  have hopens : Card.opensRead (String.ofList (line.toList ++ (List.replicate n ' ' ++ rest))) =
      Card.opensRead line := by
    rw [Card.opensRead_append hline hgoes.apart, String.ofList_toList]
  have hcode := (hgoes.isComment_eq hline).trans hgoes.code.symm
  have hnone (c : Card) (hc : c.lines = ls ++ [_]) : c.isRead = false :=
    (Card.isRead_concat hlines hc (hcode.trans (isComment_spaced line n).symm)
      (hopens.trans (Card.opensRead_spaced line n).symm)).trans hread
  obtain ⟨deck, hdeck, hcards⟩ := (h.concat hgoes).exists_ofText files path b hwidth fun c hc ↦ by
    rw [Card.target?, hnone c (congrArg Prod.snd hc), if_neg Bool.false_ne_true]
  obtain ⟨card', rest, hcards', hshape, hrest⟩ := List.map_eq_cons_iff.mp hcards
  obtain rfl := List.map_eq_nil_iff.mp hrest
  have hcard : card'.lines = _ := congrArg Prod.snd hshape
  refine ⟨_, deck, card', by
    simp, htext, hdeck, hcards', congrArg Prod.fst hshape, ?_, hnone card' hcard⟩
  rw [← htext, Card.text, hcard]

end

end Reading

end TransportDeck
