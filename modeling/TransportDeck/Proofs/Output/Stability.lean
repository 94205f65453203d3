import TransportDeck.Proofs.Deck.Comments
import TransportDeck.Proofs.Input.Inclusion
import TransportDeck.Proofs.Node.Layout
import TransportDeck.Proofs.Output.Width

/-!
# Wrapping twice

A line stands if wrapping has nothing to do about it: it is short or a comment, its code fits, or
there is no blank to cut it at.  Wrapping leaves only lines that stand, and so are the lines of all
cards that are read for the same width.
-/

namespace TransportDeck

open Text

namespace Wrap

variable {width : Nat} {line cs : List Char}

/-! ## Lines that stand -/

/-- Why a line is left as it is: there is no need to cut it, or no way. -/
inductive Stands (width : Nat) (line : List Char) : Prop where
  | short (h : fits width line = true)
  | comment (h : Line.isComment (String.ofList line) = true)
  | code (h : fits width (codePart line) = true)
  | unbreakable (h : break? width line = none)

theorem cutLine_of_stands (hcode : fits width (codePart cs) = true ∨ break? width cs = none) :
    (cutLine width cs).1 = [cs] := by
  by_cases hfits : fits width (codePart cs) = true
  · rw [cutLine, if_pos hfits]
  · rw [cutLine_of_no_break hfits (hcode.resolve_left hfits)]

theorem Stands.wrapLine_eq (h : Stands width line) : (wrapLine width line).1 = [line] := by
  unfold wrapLine
  split_ifs with hwhole
  · rfl
  · rw [Bool.or_eq_true, not_or] at hwhole
    cases h with
    | short h => exact absurd h hwhole.1
    | comment h => exact absurd h hwhole.2
    | code h => exact cutLine_of_stands (.inl h)
    | unbreakable h => exact cutLine_of_stands (.inr h)

/-- Each cut leaves a short line in front, and the loop ends at a line that stands. -/
theorem stands_of_mem_cutLine : ∀ piece ∈ (cutLine width cs).1, Stands width piece := by
  induction cs using cutLine.induct width with
  | case1 cs hfits =>
    rw [cutLine, if_pos hfits]
    simpa using Stands.code hfits
  | case2 cs hfits hbreak =>
    rw [cutLine_of_no_break hfits hbreak]
    simpa using Stands.unbreakable hbreak
  | case3 cs hfits i hbreak ih =>
    rw [cutLine_of_break hfits hbreak]
    refine List.forall_mem_cons.mpr ⟨.short ?_, ih⟩
    have hi : i < width + 1 := breakFrom?_lt hbreak
    have hlength := (trimEnd_isPrefix (cs.take i)).length_le.trans (List.length_take_le i cs)
    rw [fits, decide_eq_true_eq]
    omega

theorem stands_of_mem_wrapLine : ∀ piece ∈ (wrapLine width line).1, Stands width piece := by
  unfold wrapLine
  split_ifs with hwhole
  · simp only [List.mem_singleton, forall_eq]
    exact (Bool.or_eq_true _ _ ▸ hwhole).elim .short .comment
  · exact stands_of_mem_cutLine

/-- The text of a wrapped record is made of the pieces of its lines. -/
theorem toList_text_wrap (width : Nat) (record : String) : (wrap width record).text.toList =
    ['\n'].intercalate ((splitWhere (· == '\n') record.toList).flatMap fun line ↦
      (wrapLine width line).1) := by
  rw [← splitWhere_wrap, intercalate_splitWhere]

/-- A text is left as it is if all its lines stand. -/
theorem text_wrap_of_stands {record : String}
    (h : ∀ line ∈ splitWhere (· == '\n') record.toList, Stands width line) :
    (wrap width record).text = record := by
  have hpieces :
    (splitWhere (· == '\n') record.toList).flatMap (fun line ↦ (wrapLine width line).1) =
      splitWhere (· == '\n') record.toList := by
    rw [List.flatMap_congr fun line hline ↦ (h line hline).wrapLine_eq, List.flatMap_singleton']
  rw [← String.toList_inj, toList_text_wrap, hpieces, intercalate_splitWhere]

/-- What has been wrapped is not wrapped again. -/
theorem text_wrap_wrap (width : Nat) (record : String) :
    (wrap width (wrap width record).text).text = (wrap width record).text := by
  refine text_wrap_of_stands fun piece hpiece ↦ ?_
  rw [splitWhere_wrap] at hpiece
  obtain ⟨line, -, hpiece⟩ := List.mem_flatMap.mp hpiece
  exact stands_of_mem_wrapLine piece hpiece

end Wrap

/-! ## Cards as they are read -/

namespace Reading

open RawDeck

variable {options : ReadOptions} {files : Files.Source} {path : String} {width room : Nat}

/-- The cards of lines have lines that fit. -/
theorem areWritten_cardsIn (hwidth : Limits.continuationColumns < width) {ls : List String}
    (h : ∀ line ∈ ls, '\n' ∉ line.toList) : AreWritten width (cardsIn width room ls) :=
  fun c hc ↦ by
  obtain ⟨hne, hlines⟩ := exists_of_mem_cardsIn hc
  refine ⟨hne, fun l hl ↦ ?_⟩
  obtain ⟨line, hline, rfl⟩ := hlines l hl
  exact ⟨fun hmem ↦ h line (mem_linesIn hline).1 ((Line.keep_isPrefix width line).subset hmem),
    (Line.isKept_keep hwidth line).fits⟩

/-- So have the cards of the files that are asked for, and of those below them. -/
theorem Shelf.Splices.areWritten {s : Shelf} {depth : Nat} {requests : List (Block × String)}
    {cards : List Card} (hwidth : Limits.continuationColumns < s.width)
    (h : s.Splices depth requests (.ok cards)) : AreWritten s.width (cards.map Card.shape) := by
  generalize hr : (Except.ok cards : Except ReadError (List Card)) = r at h
  induction h generalizing cards with
  | nil =>
    obtain rfl := Except.ok.inj hr
    simp [AreWritten]
  | tooDeep | unreadable | stopped => cases hr
  | @cons depth request requests own below r hdepth hcards _ _ ihbelow ihbehind =>
    cases r with
    | error e => cases hr
    | ok rest =>
      obtain rfl := Except.ok.inj hr
      obtain ⟨text, hfile⟩ := exists_isFile hcards
      have hown : AreWritten s.width (own.map Card.shape) := hfile.cards_eq ▸
        areWritten_cardsIn hwidth fun line hline ↦ (isPlain_of_mem_normalLines hline).one_line
      simp only [AreWritten, List.map_append, List.forall_mem_append]
      exact ⟨⟨hown, ihbelow rfl⟩, ihbehind rfl⟩

/-- The lines of all cards of a deck fit, whatever file they stand in. -/
theorem areWritten_of_run {text : List Char} {log : ReadLog} {deck : RawDeck}
    (hwidth : options.version.width = .ok width)
    (h : ((readText options files path text).run log).1 = .ok deck) :
    AreWritten width (deck.cards.map Card.shape) := by
  have hcolumns := continuationColumns_lt_width hwidth
  have hread := readsDeck_readText options files path text log
  rw [h] at hread
  obtain ⟨own, below, hown, hcards, hbelow⟩ := hread.exists_splices hwidth
  rw [hcards, List.map_append, AreWritten, List.forall_mem_append]
  refine ⟨(of_ownCards hown).1 ▸ areWritten_cardsIn hcolumns fun line hline ↦ ?_,
    hbelow.areWritten hcolumns⟩
  exact (isPlain_of_mem_normalLines
    (mem_of_mem_frontOf ((List.drop_suffix _ _).subset hline))).one_line

/-- A deck that is read from a file is read from the text of the file. -/
theorem exists_run_of_ofFile {deck : RawDeck} (h : ofFile options files path = .ok deck) :
    ∃ text log, ((readText options files path text).run log).1 = .ok deck := by
  unfold ofFile readFile at h
  split at h
  · obtain ⟨text, log, -, hrun⟩ := exists_of_run_bind (Prod.eq_iff_fst_eq_snd_eq.mpr ⟨h, rfl⟩)
    exact ⟨text, log, congrArg Prod.fst hrun⟩
  · cases h

end Reading

/-- The deck is read from a text, or from a file. -/
def RawDeck.IsRead (options : ReadOptions) (files : Files.Source) (path : String) (deck : RawDeck) :
    Prop :=
  (∃ text, RawDeck.ofText options files path text = .ok deck) ∨
    RawDeck.ofFile options files path = .ok deck

/-- Wrapping twice is wrapping once, also where a token does not fit; and the cards that are read
for a width are not changed by wrapping them for it. -/
theorem Wrap.isStable (w : LineWidth) :
    (∀ text, (wrap w.columns (wrap w.columns text).text).text = (wrap w.columns text).text) ∧
    ∀ options files path deck, options.version.width = .ok w.columns →
      RawDeck.IsRead options files path deck →
      ∀ card ∈ deck.cards, wrap w.columns card.text = .ofText card.text := by
  refine ⟨text_wrap_wrap w.columns, fun options files path deck hwidth hread card hcard ↦ ?_⟩
  have hwritten : Reading.AreWritten w.columns (deck.cards.map Card.shape) := by
    rcases hread with ⟨text, htext⟩ | hfile
    · exact Reading.areWritten_of_run hwidth htext
    · obtain ⟨text, log, hrun⟩ := Reading.exists_run_of_ofFile hfile
      exact Reading.areWritten_of_run hwidth hrun
  obtain ⟨hne, hlines⟩ := hwritten card.shape (List.mem_map_of_mem hcard)
  exact wrap_intercalate hne (fun l hl ↦ (hlines l hl).1) fun l hl ↦ (hlines l hl).2

/-- A card of another file whose comment is wider than the lines may be. -/
theorem Wrap.isStable_of_included :
    ∃ (options : ReadOptions) (files : Files.Source) (deck : RawDeck) (w : LineWidth)
      (card : Card), options.version.width = .ok w.columns ∧
      RawDeck.IsRead options files "deck" deck ∧ card ∈ deck.cards ∧ card.depth = 1 ∧
      w.columns < card.text.length ∧ wrap w.columns card.text = .ofText card.text := by
  let options : ReadOptions := ⟨⟨6, 1, 0⟩, true⟩
  let wide := "1 0 -1 $" ++ spaces 80 ++ "wide"
  let files : Files.Source := fun path ↦
    if path == "cells" then .ok (.file 92 (wide.toList.map Char.toNat)) else .error .notFound
  let card : Card := ⟨.cell, [wide], "cells", 1, 1⟩
  let deck : RawDeck :=
    ⟨none, some "t", [⟨.cell, ["read file=cells"], "deck", 2, 0⟩, card], [], false⟩
  have hread : RawDeck.ofText options files "deck" "t\nread file=cells\n" = .ok deck := by
    decide +kernel
  have hcard : card ∈ deck.cards := by decide
  exact ⟨options, files, deck, ⟨80, by decide⟩, card, rfl, .inl ⟨_, hread⟩, hcard, rfl, by
    decide +kernel,
      (Wrap.isStable ⟨80, by decide⟩).2 options files "deck" deck rfl (.inl ⟨_, hread⟩) card hcard⟩

end TransportDeck
