import TransportDeck.Proofs.Input.Lines

/-!
# Blocks of cards

Whatever has been reported before, the cards of a file depend on its lines alone: blank lines cut it
into blocks, and the lines of a block are divided into cards.  Dividing the lines that the cards
have kept gives the same cards.
-/

namespace TransportDeck

open Text

/-- The block and the lines of a card, without its place. -/
def Card.shape (c : Card) : Block × List String := (c.block, c.lines)

namespace Reading

variable {α β σ : Type}

/-! ## Outcomes -/

/-- The computation ends so, whatever was reported before. -/
def Gives (m : Reading α) (r : Except ReadError α) : Prop := ∀ log, (m.run log).1 = r

/-- What is logged by a run is logged by its halves, one behind the other. -/
theorem run_bind (m : Reading α) (f : α → Reading β) (log : ReadLog) :
    (m >>= f).run log = (ExceptT.bindCont f (m.run log).1).run (m.run log).2 := rfl

/-- A sequence succeeds if its parts do. -/
theorem exists_of_run_bind {m : Reading α} {f : α → Reading β} {log log' : ReadLog} {b : β}
    (h : (m >>= f).run log = (.ok b, log')) :
    ∃ a log'', m.run log = (.ok a, log'') ∧ (f a).run log'' = (.ok b, log') := by
  rw [run_bind] at h
  rcases hm : m.run log with ⟨r, log''⟩
  rw [hm] at h
  cases r with
  | ok a => exact ⟨a, log'', rfl, h⟩
  | error e => cases h

namespace Gives

theorem pure (a : α) : Gives (Pure.pure a) (.ok a) := fun _ ↦ rfl

/-- A run gives what its second half gives. -/
theorem bind {m : Reading α} {f : α → Reading β} {a : α} {r : Except ReadError β}
    (hm : Gives m (.ok a)) (hf : Gives (f a) r) : Gives (m >>= f) r := fun log ↦ by
  rw [run_bind, hm log]
  exact hf _

/-- A run that fails gives the error of its first half. -/
theorem bind_error {m : Reading α} {f : α → Reading β} {e : ReadError} (hm : Gives m (.error e)) :
    Gives (m >>= f) (.error e) := fun log ↦ by
  rw [run_bind, hm log]
  rfl

/-- Logging changes nothing but the log. -/
theorem log (e : Event) : Gives (Reading.log e) (.ok ()) := fun _ ↦ rfl

/-- A warning changes nothing but the log. -/
theorem warn (w : Warning) : Gives (Reading.warn w) (.ok ()) := fun _ ↦ rfl

theorem fail (e : ReadError) (message : String) (values : List (String × String)) :
    Gives (Reading.fail (α := α) e message values) (.error e) := fun _ ↦ rfl

/-- A function is mapped along a list, whatever is logged on the way. -/
theorem mapM {f : α → Reading β} {g : α → β} (h : ∀ a, Gives (f a) (.ok (g a))) (as : List α) :
    Gives (as.mapM f) (.ok (as.map g)) := by
  induction as with
  | nil => exact pure []
  | cons a as ih =>
    rw [List.mapM_cons]
    exact (h a).bind (ih.bind (pure _))

/-- A list is folded, whatever is logged on the way. -/
theorem foldlM {f : σ → α → Reading σ} {g : σ → α → Except ReadError σ}
    (h : ∀ s a, Gives (f s a) (g s a)) (as : List α) (s : σ) :
    Gives (as.foldlM f s) (as.foldlM g s) := by
  induction as generalizing s with
  | nil => exact pure s
  | cons a as ih =>
    rw [List.foldlM_cons, List.foldlM_cons]
    have ha := h s a
    cases hg : g s a with
    | ok s' =>
      rw [hg] at ha
      exact ha.bind (ih s')
    | error e =>
      rw [hg] at ha
      exact ha.bind_error

/-- A run that succeeds has the outcome of every run. -/
theorem eq_ok_of_run {m : Reading α} {r : Except ReadError α} {a : α} {log log' : ReadLog}
    (h : Gives m r) (hrun : m.run log = (.ok a, log')) : r = .ok a := by
  rw [← h log, hrun]

end Gives

/-! ## One line -/

variable (place : Place)

/-- The scan with its pending lines as a card. -/
def flushed (s : Scan) : Scan :=
  if s.pending.isEmpty then s
  else { s with
    pending := #[]
    continued := false
    cards := s.cards.push
      ⟨.ofIndex s.block, s.pending.toList, place.path, s.firstLine, place.depth⟩ }

def closed (s : Scan) : Scan :=
  { flushed place s with
    block := (flushed place s).block + 1
    hasCode := false
    continued := false }

/-- The scan with a line more in its pending card. -/
def appended (number : Nat) (line : String) (s : Scan) : Scan :=
  { s with
    continued := asksForMore (Line.keep place.width line)
    hasCode := s.hasCode || !Line.isComment line
    firstLine := if s.pending.isEmpty then number else s.firstLine
    pending := s.pending.push (Line.keep place.width line) }

/-- The scan with a line more in its block. -/
def added (number : Nat) (line : String) (s : Scan) : Scan :=
  appended place number line (if startsCard s line then flushed place s else s)

/-- Whether the line belongs to the vertical format, which is not read. -/
def isVertical (line : String) : Bool :=
  !Line.isComment line && (Line.firstColumns line).contains '#'

def step (s : Scan) (numbered : Nat × String) : Except ReadError Scan :=
  if s.block ≥ Limits.blocks then .ok s
  else if Line.isBlank numbered.2 then .ok (closed place s)
  else if isVertical numbered.2 then .error (.verticalFormat place.path numbered.1)
  else .ok (added place numbered.1 numbered.2 s)

/-- Closing a card gives the scan with the card, whatever is logged. -/
theorem gives_flush (s : Scan) : Gives (flush place s) (.ok (flushed place s)) := by
  unfold flush flushed
  split_ifs
  · exact .pure s
  · dsimp only
    split
    · exact (Gives.log _).bind (.pure _)
    · exact .pure _

/-- A line is cut to what is kept of it, whatever is logged. -/
theorem gives_cutLine (options : ReadOptions) (width : Nat) (path : String) (number : Nat)
    (line : String) :
    Gives (cutLine options width path number line) (.ok (Line.keep width line)) := by
  unfold cutLine Line.keep
  dsimp only
  split_ifs
  · exact .pure _
  · exact (Gives.warn _).bind (.pure _)

/-- A skipped line is logged, and nothing else. -/
theorem gives_skipLine (number : Nat) (line : String) :
    Gives (skipLine place number line) (.ok ()) := fun log ↦ by
  have hget : (skipLine place number line).run log =
      (if !Line.isBlank line && !log.extraReported then
        (do
          modify fun r => { r with extraReported := true }
          warn ((Warning.of .extraBlocks "Content after the data block is ignored").inFile
            place.path number) : Reading Unit)
      else pure ()).run log := rfl
  rw [hget]
  split_ifs <;> rfl

/-- A line is refused if it is vertical, and otherwise added to the scan. -/
theorem gives_addLine (number : Nat) (line : String) (s : Scan) :
    Gives (addLine place number line s) (if isVertical line then
      .error (.verticalFormat place.path number) else .ok (added place number line s)) := by
  have happended (t : Scan) : Gives (if isVertical line then
          fail (.verticalFormat place.path number) "Vertical input format found"
            [("path", place.path), ("line", toString number)]
        else do
          let kept ← cutLine place.options place.width place.path number line
          return { t with
            continued := asksForMore kept
            hasCode := t.hasCode || !Line.isComment line
            firstLine := if t.pending.isEmpty then number else t.firstLine
            pending := t.pending.push kept }) (if isVertical line then
        .error (.verticalFormat place.path number) else .ok (appended place number line t)) := by
    by_cases hvertical : isVertical line = true
    · rw [if_pos hvertical, if_pos hvertical]
      exact .fail _ _ _
    · rw [if_neg hvertical, if_neg hvertical]
      exact (gives_cutLine _ _ _ _ _).bind (.pure _)
  unfold addLine added
  by_cases hstarts : startsCard s line = true
  · rw [if_pos hstarts, if_pos hstarts]
    exact (gives_flush place s).bind (happended _)
  · rw [if_neg hstarts, if_neg hstarts]
    exact (Gives.pure s).bind (happended _)

/-- Scanning a line does the step of the scan, whatever is logged. -/
theorem gives_scanLine (s : Scan) (numbered : Nat × String) :
    Gives (scanLine place s numbered) (step place s numbered) := by
  obtain ⟨number, line⟩ := numbered
  unfold scanLine step
  dsimp only
  split_ifs with hblock hblank hvertical
  · exact (gives_skipLine place number line).bind (.pure s)
  · exact (gives_flush place s).bind ((Gives.log _).bind (.pure _))
  · have h := gives_addLine place number line s
    rwa [if_pos hvertical] at h
  · have h := gives_addLine place number line s
    rwa [if_neg hvertical] at h

/-! ## Dividing a block -/

/-- The lines of a card that has any. -/
def pendingCard (pending : List String) : List (List String) :=
  if pending.isEmpty then [] else [pending]

/-- Whether a line starts the card behind the pending one. -/
def opens (hasCode continued : Bool) (pending : List String) (line : String) : Bool :=
  !allBlank (Line.firstColumns line) && !continued && !Line.isComment line && hasCode &&
    !pending.isEmpty

/-- The lines of a block, divided into those of its cards. -/
def divide (width : Nat) (hasCode continued : Bool) (pending : List String) :
    List String → List (List String)
  | [] => pendingCard pending
  | line :: rest =>
    let kept := Line.keep width line
    let hasCode' := hasCode || !Line.isComment line
    if opens hasCode continued pending line then
      pending :: divide width hasCode' (asksForMore kept) [kept] rest
    else divide width hasCode' (asksForMore kept) (pending ++ [kept]) rest

variable {width : Nat} {hasCode continued : Bool} {pending lines : List String}

/-- Division loses no line. -/
theorem flatten_divide :
    (divide width hasCode continued pending lines).flatten =
      pending ++ lines.map (Line.keep width) := by
  induction lines generalizing hasCode continued pending with
  | nil =>
    rw [divide, pendingCard]
    split_ifs with h
    · simpa using h
    · simp
  | cons line rest ih =>
    rw [divide]
    split_ifs <;> simp [ih]

/-- A card has at least one line. -/
theorem ne_nil_of_mem_divide {card : List String}
    (h : card ∈ divide width hasCode continued pending lines) : card ≠ [] := by
  induction lines generalizing hasCode continued pending with
  | nil =>
    rw [divide, pendingCard] at h
    split_ifs at h with hempty
    · cases h
    · rintro rfl
      obtain rfl := List.mem_singleton.mp h
      exact hempty rfl
  | cons line rest ih =>
    rw [divide] at h
    split_ifs at h with hopens
    · rcases List.mem_cons.mp h with rfl | h
      · rintro rfl
        simp [opens] at hopens
      · exact ih h
    · exact ih h

/-- The kept lines are divided as the lines are. -/
theorem divide_map_keep (hwidth : Limits.continuationColumns < width)
    (h : ∀ line ∈ lines, Line.keep width line ≠ "") :
    divide width hasCode continued pending (lines.map (Line.keep width)) =
      divide width hasCode continued pending lines := by
  induction lines generalizing hasCode continued pending with
  | nil => rfl
  | cons line rest ih =>
    have hshort := Line.shortens_keep hwidth (h line List.mem_cons_self)
    have hcomment := hshort.isComment_eq
    have hcolumns := hshort.allBlank_firstColumns
    rw [String.ofList_toList, String.ofList_toList] at hcomment hcolumns
    have hrest : ∀ line ∈ rest, Line.keep width line ≠ "" :=
      fun line hline ↦ h line (List.mem_cons_of_mem _ hline)
    have hopens : opens hasCode continued pending (Line.keep width line) =
        opens hasCode continued pending line := by
      rw [opens, opens, hcomment, hcolumns]
    simp only [List.map_cons, divide, hopens, hcomment, Line.keep_keep hwidth, ih hrest]

/-! ## Whole files -/

/-- The lines up to the first blank one. -/
def inBlock (lines : List String) : List String := lines.takeWhile (!Line.isBlank ·)

/-- The lines behind the first blank one. -/
def behind (lines : List String) : List String := (lines.dropWhile (!Line.isBlank ·)).drop 1

/-- The blocks and the lines of the cards in the last `room` blocks. -/
def cardsIn (width : Nat) : (room : Nat) → List String → List (Block × List String)
  | 0, _ => []
  | room + 1, lines =>
    (divide width false false [] (inBlock lines)).map (Block.ofIndex (2 - room), ·) ++
      cardsIn width room (behind lines)

/-- The lines of the last `room` blocks. -/
def linesIn : (room : Nat) → List String → List String
  | 0, _ => []
  | room + 1, lines => inBlock lines ++ linesIn room (behind lines)

def shapes (s : Scan) : List (Block × List String) := s.cards.toList.map Card.shape

/-- Closing a card puts it behind the others, with the block that it stands in. -/
theorem shapes_flushed (s : Scan) : shapes (flushed place s) =
    shapes s ++ (pendingCard s.pending.toList).map (Block.ofIndex s.block, ·) := by
  unfold flushed pendingCard
  rw [Array.isEmpty_toList]
  split_ifs <;> simp [shapes, Card.shape]

/-- Closing a card does not leave the block. -/
theorem block_flushed (s : Scan) : (flushed place s).block = s.block := by
  unfold flushed
  split_ifs <;> rfl

/-- What is pending when the block ends belongs to the division as much as what comes. -/
theorem shapes_added (number : Nat) (line : String) (s : Scan) (rest : List String) :
    shapes (added place number line s) ++ (divide place.width (added place number line s).hasCode
      (added place number line s).continued (added place number line s).pending.toList rest).map
        (Block.ofIndex s.block, ·) =
    shapes s ++ (divide place.width s.hasCode s.continued s.pending.toList (line :: rest)).map
        (Block.ofIndex s.block, ·) := by
  have hopens : opens s.hasCode s.continued s.pending.toList line = startsCard s line := by
    rw [opens, startsCard, Array.isEmpty_toList]
  rw [divide, hopens, added]
  split_ifs with hstarts
  · have hpending : s.pending.isEmpty = false := by
      simp only [startsCard, Bool.and_eq_true] at hstarts
      simpa using hstarts.2
    simp [appended, flushed, hpending, shapes, Card.shape]
  · simp [appended, shapes]

/-- Adding a line does not leave the block. -/
theorem block_added (number : Nat) (line : String) (s : Scan) :
    (added place number line s).block = s.block := by
  change (if startsCard s line then flushed place s else s).block = s.block
  split_ifs
  · exact block_flushed place s
  · rfl

/-- The lines of one block. -/
theorem foldlM_step_of_solid {s : Scan} (hblock : s.block < Limits.blocks)
    {ls : List (Nat × String)} (h : ∀ l ∈ ls, Line.isBlank l.2 = false) :
    match ls.foldlM (step place) s with
    | .ok s' => (∀ line ∈ ls.map (·.2), isVertical line = false) ∧ s'.block = s.block ∧
        shapes (flushed place s') = shapes s ++
          (divide place.width s.hasCode s.continued s.pending.toList (ls.map (·.2))).map
            (Block.ofIndex s.block, ·)
    | .error _ => ∃ line ∈ ls.map (·.2), isVertical line = true := by
  induction ls generalizing s with
  | nil => exact ⟨by simp, rfl, shapes_flushed place s⟩
  | cons l rest ih =>
    have hsolid := h l List.mem_cons_self
    rw [List.foldlM_cons, step, if_neg (Nat.not_le.mpr hblock), hsolid, if_neg Bool.false_ne_true]
    by_cases hvertical : isVertical l.2 = true
    · rw [if_pos hvertical]
      exact ⟨l.2, by simp, hvertical⟩
    · rw [if_neg hvertical]
      have hadded := block_added place l.1 l.2 s
      have hrest := ih (hadded.symm ▸ hblock) fun l' hl' ↦ h l' (List.mem_cons_of_mem _ hl')
      change match rest.foldlM (step place) (added place l.1 l.2 s) with
        | .ok s' => _
        | .error _ => _
      cases hfold : rest.foldlM (step place) (added place l.1 l.2 s) with
      | error e =>
        rw [hfold] at hrest
        obtain ⟨line, hline, hv⟩ := hrest
        exact ⟨line, List.mem_cons_of_mem _ hline, hv⟩
      | ok s' =>
        rw [hfold] at hrest
        obtain ⟨hall, hb, hshapes⟩ := hrest
        refine ⟨?_, hb.trans hadded, ?_⟩
        · rw [List.map_cons, List.forall_mem_cons]
          exact ⟨by simpa using hvertical, hall⟩
        · rw [hshapes, hadded, shapes_added, List.map_cons]

/-- Behind the last block nothing is read any more. -/
theorem foldlM_step_of_full {s : Scan} (hblock : Limits.blocks ≤ s.block)
    (ls : List (Nat × String)) : ls.foldlM (step place) s = .ok s := by
  induction ls with
  | nil => rfl
  | cons l rest ih =>
    rw [List.foldlM_cons, step, if_pos hblock]
    exact ih

/-- The scan at the start of a block. -/
structure IsFresh (s : Scan) : Prop where
  pending : s.pending = #[]
  continued : s.continued = false
  hasCode : s.hasCode = false

theorem pending_flushed (s : Scan) : (flushed place s).pending = #[] := by
  unfold flushed
  split_ifs with h
  · exact Array.isEmpty_iff.mp h
  · rfl

/-- A closed scan starts afresh. -/
theorem isFresh_closed (s : Scan) : IsFresh (closed place s) := ⟨pending_flushed place s, rfl, rfl⟩

/-- Without a card there is nothing to close. -/
theorem flushed_of_isFresh {s : Scan} (h : IsFresh s) : flushed place s = s := by
  rw [flushed, h.pending]
  rfl

@[simp] theorem cardsIn_nil (width room : Nat) : cardsIn width room [] = [] := by
  induction room with
  | zero => rfl
  | succ room ih => simpa [cardsIn, inBlock, behind, divide, pendingCard] using ih

@[simp] theorem linesIn_nil (room : Nat) : linesIn room [] = [] := by
  induction room with
  | zero => rfl
  | succ room ih => simpa [linesIn, inBlock, behind] using ih

/-- The cards of a file are those of its blocks, unless one of their lines is vertical. -/
theorem foldlM_step {room : Nat} {s : Scan} (hfull : s.block + room = Limits.blocks)
    (hs : IsFresh s) (ls : List (Nat × String)) :
    match ls.foldlM (step place) s with
    | .ok s' => (∀ line ∈ linesIn room (ls.map (·.2)), isVertical line = false) ∧
        shapes (flushed place s') = shapes s ++ cardsIn place.width room (ls.map (·.2))
    | .error _ => ∃ line ∈ linesIn room (ls.map (·.2)), isVertical line = true := by
  induction room generalizing s ls with
  | zero =>
    rw [foldlM_step_of_full place hfull.symm.le]
    simp [linesIn, cardsIn, flushed_of_isFresh place hs]
  | succ room ih =>
    have hlt : s.block < Limits.blocks := by omega
    have hindex : 2 - room = s.block := by
      have : Limits.blocks = 3 := rfl
      omega
    have hin : inBlock (ls.map (·.2)) = (ls.takeWhile fun l ↦ !Line.isBlank l.2).map (·.2) :=
      List.takeWhile_map
    have hbehind : behind (ls.map (·.2)) =
        ((ls.dropWhile fun l ↦ !Line.isBlank l.2).drop 1).map (·.2) := by
      rw [behind, List.dropWhile_map, List.map_drop]
      rfl
    have hsplit := List.takeWhile_append_dropWhile (p := fun l : Nat × String ↦ !Line.isBlank l.2)
      (l := ls)
    have hsolid : ∀ l ∈ ls.takeWhile fun l ↦ !Line.isBlank l.2, Line.isBlank l.2 = false :=
      fun l hl ↦ by simpa using List.mem_takeWhile_imp hl
    have hblock := foldlM_step_of_solid place hlt hsolid
    rw [hs.pending, hs.continued, hs.hasCode] at hblock
    rw [linesIn, cardsIn, hin, hbehind, hindex]
    generalize hrest : ls.dropWhile (fun l ↦ !Line.isBlank l.2) = rest at hsplit ⊢
    nth_rewrite 1 [← hsplit]
    rw [List.foldlM_append]
    generalize (ls.takeWhile fun l ↦ !Line.isBlank l.2).foldlM (step place) s = r at hblock ⊢
    cases r with
    | error e =>
      obtain ⟨line, hline, hv⟩ := hblock
      exact ⟨line, List.mem_append_left _ hline, hv⟩
    | ok t =>
      obtain ⟨hall, htblock, htshapes⟩ := hblock
      cases rest with
      | nil =>
        refine ⟨?_, ?_⟩
        · simpa [linesIn_nil] using hall
        · simpa [cardsIn_nil] using htshapes
      | cons l rest =>
        have hblank : Line.isBlank l.2 = true := by
          have := List.head?_dropWhile_not (fun l : Nat × String ↦ !Line.isBlank l.2) ls
          rw [hrest] at this
          simpa using this
        have hroom : (closed place t).block + room = Limits.blocks := by
          change (flushed place t).block + 1 + room = Limits.blocks
          rw [block_flushed, htblock]
          omega
        have hrestBlocks := ih hroom (isFresh_closed place t) rest
        change match (l :: rest).foldlM (step place) t with
          | .ok s' => _
          | .error _ => _
        rw [List.foldlM_cons, step, if_neg (by omega), if_pos hblank]
        change match rest.foldlM (step place) (closed place t) with
          | .ok s' => _
          | .error _ => _
        generalize rest.foldlM (step place) (closed place t) = r at hrestBlocks ⊢
        cases r with
        | error e =>
          obtain ⟨line, hline, hv⟩ := hrestBlocks
          exact ⟨line, List.mem_append_right _ hline, hv⟩
        | ok s' =>
          obtain ⟨hlater, hshapes⟩ := hrestBlocks
          refine ⟨fun line hline ↦ ?_, ?_⟩
          · rcases List.mem_append.mp hline with hline | hline
            · exact hall line hline
            · exact hlater line hline
          · rw [hshapes, ← List.append_assoc, ← htshapes]
            rfl

/-- What a scan of a deck's lines ends in. -/
theorem gives_scan (ls : List (Nat × String)) : ∃ r, Gives (scan place .cell ls) r ∧
    match r with
    | .ok (cards, _) => (∀ line ∈ linesIn Limits.blocks (ls.map (·.2)), isVertical line = false) ∧
        cards.map Card.shape = cardsIn place.width Limits.blocks (ls.map (·.2))
    | .error _ => ∃ line ∈ linesIn Limits.blocks (ls.map (·.2)), isVertical line = true := by
  have hfull : (Scan.start .cell).block + Limits.blocks = Limits.blocks := rfl
  have hfresh : IsFresh (Scan.start .cell) := ⟨rfl, rfl, rfl⟩
  have hfold := foldlM_step place hfull hfresh ls
  have hgives := Gives.foldlM (gives_scanLine place) ls (Scan.start .cell)
  generalize ls.foldlM (step place) (Scan.start .cell) = r at hfold hgives
  cases r with
  | error e => exact ⟨.error e, hgives.bind_error, hfold⟩
  | ok s =>
    exact ⟨_, hgives.bind ((gives_flush place s).bind (.pure _)), hfold⟩

end Reading

end TransportDeck
