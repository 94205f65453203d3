import TransportDeck.Proofs.Input.Blocks

/-!
# Decks and their lines

The message, the title and the cards of a deck that asks for no other file are those of its lines,
and its lines can be read if they are not all blank and none of a block is vertical.
-/

namespace TransportDeck

open Text

/-! ## Runs of the reader -/

namespace Reading

theorem Gives.run_bind_eq {α β : Type} {m : Reading α} {a : α} (h : Gives m (.ok a))
    (f : α → Reading β) (log : ReadLog) : (m >>= f).run log = (f a).run (m.run log).2 := by
  rw [run_bind, h log]
  rfl

/-- The lines of a text as they are read. -/
def normalLines (options : ReadOptions) (text : List Char) : List String :=
  (lines text).map (Line.normal options.replaceNonAscii)

def numbered (options : ReadOptions) (text : List Char) : List (Nat × String) :=
  ((lines text).zipIdx 1).map fun l ↦ (l.2, Line.normal options.replaceNonAscii l.1)

theorem map_snd_numbered (options : ReadOptions) (text : List Char) :
    (numbered options text).map (·.2) = normalLines options text := by
  rw [numbered, normalLines, List.map_map]
  change ((lines text).zipIdx 1).map (Line.normal options.replaceNonAscii ∘ Prod.fst) = _
  rw [← List.map_map, List.zipIdx_map_fst]

theorem gives_numberedLines (options : ReadOptions) (path : String) (text : List Char) :
    Gives (numberedLines options path text) (.ok (numbered options text)) := by
  refine Gives.mapM (fun l ↦ ?_) _
  obtain ⟨line, number⟩ := l
  have hnormal : Gives (normalizeLine options path number line)
      (.ok (Line.normal options.replaceNonAscii line)) := by
    unfold normalizeLine Line.normal
    dsimp only
    split_ifs
    · exact (Gives.warn _).bind (.pure _)
    · exact .pure _
  exact hnormal.bind (.pure _)

/-- The message of a deck and the lines behind it. -/
def frontOf (lines : List String) : Option (List String) × List String :=
  match lines with
  | [] => (none, [])
  | first :: _ =>
    if opensMessage first then (some ((inBlock lines).map trimEndString), behind lines)
    else (none, lines)

theorem inBlock_map (ls : List (Nat × String)) :
    inBlock (ls.map (·.2)) = (ls.takeWhile (!Line.isBlank ·.2)).map (·.2) := List.takeWhile_map

theorem behind_map (ls : List (Nat × String)) :
    behind (ls.map (·.2)) = ((ls.dropWhile (!Line.isBlank ·.2)).drop 1).map (·.2) := by
  rw [behind, List.dropWhile_map, List.map_drop]
  rfl

theorem frontOf_map (ls : List (Nat × String)) :
    frontOf (ls.map (·.2)) = ((splitMessage ls).1, (splitMessage ls).2.map (·.2)) := by
  cases ls with
  | nil => rfl
  | cons l ls =>
    rw [List.map_cons, frontOf, splitMessage]
    split_ifs with h
    · rw [← List.map_cons, inBlock_map, behind_map, List.map_map]
      rfl
    · rfl

/-- What a deck without other files says of the lines it was read from. -/
structure IsDeckOf (width : Nat) (ls : List String) (message : Option (List String))
    (title : Option String) (cards : List (Block × List String)) : Prop where
  message_eq : message = (frontOf ls).1
  title_eq : title = (frontOf ls).2.head?.map trimEndString
  cards_eq : cards = cardsIn width Limits.blocks ((frontOf ls).2.drop 1)

/-- The lines can be read. -/
structure IsReadable (ls : List String) : Prop where
  content : ls.all Line.isBlank = false
  horizontal : ∀ line ∈ linesIn Limits.blocks ((frontOf ls).2.drop 1), isVertical line = false

/-- What is read of lines that are not all blank. -/
def readLines (options : ReadOptions) (files : Files.Source) (path : String) (width : Nat)
    (ls : List (Nat × String)) : Reading RawDeck := do
  let (message, rest) := splitMessage ls
  let (cards, closed) ← scan ⟨options, width, path, 0⟩ .cell (rest.drop 1)
  let below ← (targets cards).mapM
    (includeFile options width files (Files.parent path) Limits.includeDepth 1)
  let all := cards ++ below.flatten
  let warnings := (← get).warnings
  log ((Event.success .blocksRead "Input split into records").withValues
    [("path", path), ("records", toString all.length), ("warnings", toString warnings.size)])
  return ⟨message, rest.head?.map fun l => trimEndString l.2, all, warnings.toList,
    closed ≥ Limits.blocks⟩

variable {options : ReadOptions} {files : Files.Source} {path text : String}
  {deck : RawDeck} {width : Nat}

theorem ofText_eq (files : Files.Source) (path text : String)
    (hwidth : options.version.width = .ok width) : ∃ log, RawDeck.ofText options files path text =
    if (normalLines options text.toList).all Line.isBlank then .error (.emptyFile path)
    else ((readLines options files path width (numbered options text.toList)).run log).1 := by
  have hrun : RawDeck.ofText options files path text =
      ((numberedLines options path text.toList >>= fun ls ↦
        if ls.all (Line.isBlank ·.2) then
          fail (.emptyFile path) "Input has no content" [("path", path)]
        else readLines options files path width ls).run .empty).1 := by
    unfold RawDeck.ofText readText
    rw [hwidth]
    rfl
  have hblank : (normalLines options text.toList).all Line.isBlank =
      (numbered options text.toList).all (Line.isBlank ·.2) := by
    rw [← map_snd_numbered, List.all_map]
    rfl
  rw [(gives_numberedLines options path text.toList).run_bind_eq] at hrun
  refine ⟨((numberedLines options path text.toList).run .empty).2, ?_⟩
  rw [hrun, hblank]
  split_ifs <;> rfl

theorem width_of_ofText (h : RawDeck.ofText options files path text = .ok deck) :
    ∃ width, options.version.width = .ok width := by
  cases hwidth : options.version.width with
  | ok width => exact ⟨width, rfl⟩
  | error e =>
    unfold RawDeck.ofText readText at h
    rw [hwidth] at h
    cases h

theorem targets_eq_nil {cards : List Card} (h : ∀ c ∈ cards, c.target? = none) :
    targets cards = [] := by
  refine List.filterMap_eq_nil_iff.mpr fun c hc ↦ ?_
  rw [h c hc]
  rfl

/-- A deck has the cards of its lines, which can be read, in front of those of other files. -/
theorem exists_scanned_of_ofText (hwidth : options.version.width = .ok width)
    (h : RawDeck.ofText options files path text = .ok deck) :
    ∃ cards below, deck.cards = cards ++ below ∧ (targets cards = [] → below = []) ∧
      IsReadable (normalLines options text.toList) ∧
      IsDeckOf width (normalLines options text.toList)
        deck.message deck.title (cards.map Card.shape) := by
  obtain ⟨log, hrun⟩ := ofText_eq files path text hwidth
  rw [h] at hrun
  split_ifs at hrun with hblank
  rcases hlines : (readLines options files path width (numbered options text.toList)).run log with
    ⟨r, log'⟩
  rw [hlines] at hrun
  obtain rfl : .ok deck = r := hrun
  unfold readLines at hlines
  dsimp only at hlines
  obtain ⟨⟨cards, closed⟩, log₁, hscan, hlines⟩ := exists_of_run_bind hlines
  obtain ⟨below, log₂, hbelow, hlines⟩ := exists_of_run_bind hlines
  obtain ⟨now, log₃, -, hlines⟩ := exists_of_run_bind hlines
  obtain ⟨-, log₄, -, hlines⟩ := exists_of_run_bind hlines
  cases hlines
  obtain ⟨r, hgives, hr⟩ := gives_scan ⟨options, width, path, 0⟩
    ((splitMessage (numbered options text.toList)).2.drop 1)
  rw [hgives.eq_ok_of_run hscan, List.map_drop] at hr
  have hfront := frontOf_map (numbered options text.toList)
  rw [map_snd_numbered] at hfront
  have hrest : (frontOf (normalLines options text.toList)).2 =
      (splitMessage (numbered options text.toList)).2.map (·.2) := congrArg Prod.snd hfront
  rw [← hrest] at hr
  refine ⟨cards, below.flatten, rfl, fun hnone ↦ ?_, ⟨by simpa using hblank, hr.1⟩,
    ⟨congrArg Prod.fst hfront.symm, ?_, hr.2⟩⟩
  · rw [hnone] at hbelow
    cases hbelow
    rfl
  · rw [hrest, List.head?_map, Option.map_map]
    rfl

/-- A deck that asks for no other file is that of its lines, and these can be read. -/
theorem isDeckOf_of_ofText (hwidth : options.version.width = .ok width)
    (h : RawDeck.ofText options files path text = .ok deck)
    (hown : ∀ c ∈ deck.cards, c.target? = none) : IsReadable (normalLines options text.toList) ∧
      IsDeckOf width (normalLines options text.toList) deck.message deck.title
        (deck.cards.map Card.shape) := by
  obtain ⟨cards, below, hcards, hbelow, hread, hdeck⟩ := exists_scanned_of_ofText hwidth h
  have hnone : targets cards = [] := targets_eq_nil fun c hc ↦
    hown c (hcards ▸ List.mem_append_left _ hc)
  obtain rfl : cards = deck.cards := by rw [hcards, hbelow hnone, List.append_nil]
  exact ⟨hread, hdeck⟩

/-- Lines that can be read and whose cards ask for no other file are read as the deck that they
are. -/
theorem exists_ofText (hwidth : options.version.width = .ok width)
    (hread : IsReadable (normalLines options text.toList)) {message : Option (List String)}
    {title : Option String} {cards : List (Block × List String)}
    (h : IsDeckOf width (normalLines options text.toList) message title cards)
    (hown : ∀ c : Card, c.shape ∈ cards → c.target? = none) :
    ∃ deck, RawDeck.ofText options files path text = .ok deck ∧ deck.message = message ∧
      deck.title = title ∧ deck.cards.map Card.shape = cards := by
  obtain ⟨log, hrun⟩ := ofText_eq files path text hwidth
  rw [hread.content, if_neg Bool.false_ne_true] at hrun
  have hfront := frontOf_map (numbered options text.toList)
  rw [map_snd_numbered] at hfront
  have hrest : (frontOf (normalLines options text.toList)).2 =
      (splitMessage (numbered options text.toList)).2.map (·.2) := congrArg Prod.snd hfront
  obtain ⟨r, hgives, hr⟩ := gives_scan ⟨options, width, path, 0⟩
    ((splitMessage (numbered options text.toList)).2.drop 1)
  rw [List.map_drop, ← hrest] at hr
  cases r with
  | error e =>
    obtain ⟨line, hline, hvertical⟩ := hr
    rw [hread.horizontal line hline] at hvertical
    cases hvertical
  | ok scanned =>
    obtain ⟨scanned, closed⟩ := scanned
    have hshapes : scanned.map Card.shape = cards := hr.2.trans h.cards_eq.symm
    have hnone : targets scanned = [] := targets_eq_nil fun c hc ↦ by
      refine hown c ?_
      rw [← hshapes]
      exact List.mem_map_of_mem hc
    unfold readLines at hrun
    dsimp only at hrun
    rw [hgives.run_bind_eq] at hrun
    dsimp only at hrun
    rw [hnone, List.mapM_nil, (Gives.pure []).run_bind_eq] at hrun
    refine ⟨_, hrun, ?_, ?_, ?_⟩
    · exact (congrArg Prod.fst hfront).symm.trans h.message_eq.symm
    · rw [h.title_eq, hrest, List.head?_map, Option.map_map]
      rfl
    · simpa using hshapes

end Reading

end TransportDeck
