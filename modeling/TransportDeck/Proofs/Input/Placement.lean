import TransportDeck.Proofs.Input.Division
import TransportDeck.Proofs.Input.Inclusion

/-!
# Where cards stand

The cards of a deck that asks for no other file stand one behind the other in its lines: none of the
lines of its blocks is lost, read twice or moved.  What the scan remembers of the lines before is
computed from them alone, so where a card starts can be told from the lines around.
-/

namespace TransportDeck

/-- The lines of a card with their numbers. -/
def Card.placed (c : Card) : List (String × Nat) := c.lines.zipIdx c.firstLine

namespace Reading

open Text

/-! ## Lines of a deck -/

def blanks (ls : List String) : Nat := ls.countP Line.isBlank

/-- The lines behind the last blank one. -/
def sinceBlank (ls : List String) : List String := ls.rtakeWhile (!Line.isBlank ·)

/-- The lines up to the `n`-th blank one. -/
def upToBlank : (n : Nat) → List String → List String
  | 0, _ => []
  | _ + 1, [] => []
  | n + 1, l :: ls => l :: upToBlank (if Line.isBlank l then n else n + 1) ls

/-- The lines of the blocks with their numbers, the first of which is `start`. -/
def content (start : Nat) (ls : List String) : List (String × Nat) :=
  ((upToBlank Limits.blocks ls).zipIdx start).filter (!Line.isBlank ·.1)

/-- Whether a line starts a card behind the lines of a deck before it: it is the first one of its
block, or looks like the start of a card. -/
def begins (width : Nat) (before : List String) (line : String) : Bool :=
  !Line.isBlank line && ((sinceBlank before).isEmpty ||
    starts (codeAfter false (sinceBlank before)) (moreAfter width false (sinceBlank before)) line)

/-- The line with the number starts a card. -/
def StartsAt (width start : Nat) (ls : List String) (n : Nat) : Prop :=
  ∃ before line after, ls = before ++ line :: after ∧ n = start + before.length ∧
    begins width before line = true

variable {width start n : Nat} {ls before : List String} {line prev : String}

@[simp] theorem blanks_nil : blanks [] = 0 := rfl

/-- A blank line counts as one more. -/
theorem blanks_cons (line : String) (ls : List String) :
    blanks (line :: ls) = blanks ls + if Line.isBlank line then 1 else 0 := List.countP_cons

/-- The blank lines of two stretches are counted together. -/
theorem blanks_append (ls ms : List String) : blanks (ls ++ ms) = blanks ls + blanks ms :=
  List.countP_append

theorem blanks_concat (ls : List String) (line : String) :
    blanks (ls ++ [line]) = blanks ls + if Line.isBlank line then 1 else 0 := by
  rw [blanks_append, blanks_cons, blanks_nil, Nat.zero_add]

/-- Behind a blank line a block starts afresh. -/
theorem sinceBlank_concat_of_blank (ls : List String) (h : Line.isBlank line = true) :
    sinceBlank (ls ++ [line]) = [] :=
  List.rtakeWhile_concat_neg _ _ _ (by simp [h])

/-- A line that is not blank is added to its block. -/
theorem sinceBlank_concat_of_solid (ls : List String) (h : Line.isBlank line = false) :
    sinceBlank (ls ++ [line]) = sinceBlank ls ++ [line] :=
  List.rtakeWhile_concat_pos _ _ _ (by simp [h])

/-- Where something is left behind these lines, there are `n` blank ones among them. -/
theorem exists_eq_upToBlank_append (n : Nat) (ls : List String) :
    ∃ rest, ls = upToBlank n ls ++ rest ∧ (rest = [] ∨ blanks (upToBlank n ls) = n) := by
  induction ls generalizing n with
  | nil => exact ⟨[], by cases n <;> rfl, .inl rfl⟩
  | cons l ls ih =>
    cases n with
    | zero => exact ⟨l :: ls, rfl, .inr rfl⟩
    | succ n =>
      obtain ⟨rest, hls, hrest⟩ := ih (if Line.isBlank l then n else n + 1)
      refine ⟨rest, by rw [upToBlank, List.cons_append, ← hls], hrest.imp_right fun hblanks ↦ ?_⟩
      rw [upToBlank, blanks_cons, hblanks]
      split_ifs <;> rfl

/-- The lines up to a blank line may be taken apart in front of it. -/
theorem upToBlank_append (h : blanks before < n) (ls : List String) :
    upToBlank n (before ++ ls) = before ++ upToBlank (n - blanks before) ls := by
  induction before generalizing n with
  | nil => rfl
  | cons l before ih =>
    obtain ⟨n, rfl⟩ := Nat.exists_eq_succ_of_ne_zero (Nat.ne_zero_of_lt h)
    rw [blanks_cons] at h ⊢
    rw [List.cons_append, upToBlank]
    split_ifs at h ⊢ with hblank
    · rw [ih (Nat.lt_of_succ_lt_succ h), Nat.succ_sub_succ, List.cons_append]
    · rw [ih h, List.cons_append, Nat.add_zero]

/-- The last of these lines may be the `n`-th blank one, and none before it is. -/
theorem blanks_lt_of_upToBlank {after : List String}
    (h : upToBlank n ls = before ++ line :: after) : blanks before < n := by
  induction ls generalizing n before with
  | nil => cases n <;> simp [upToBlank] at h
  | cons l ls ih =>
    cases n with
    | zero => simp [upToBlank] at h
    | succ n =>
      rw [upToBlank] at h
      rcases List.cons_eq_append_iff.mp h with ⟨rfl, -⟩ | ⟨before, rfl, hls⟩
      · exact Nat.succ_pos n
      · have := ih hls
        rw [blanks_cons]
        split_ifs at this ⊢ <;> omega

/-! ## Cards in their lines -/

/-- What is known of the cards that the lines read so far have given. -/
structure IsCut (place : Place) (start : Nat) (ls : List String) (cards : List Card) : Prop where
  placed_eq : cards.flatMap Card.placed = ((ls.zipIdx start).filter (!Line.isBlank ·.1)).map fun l ↦
    (Line.keep place.width l.1, l.2)
  nonempty : ∀ c ∈ cards, c.lines ≠ []
  within : ∀ c ∈ cards, start ≤ c.firstLine ∧ c.firstLine < start + ls.length
  block_eq : ∀ c ∈ cards, c.block = .ofIndex (blanks (ls.take (c.firstLine - start)))
  starts_iff : ∀ n, (∃ c ∈ cards, c.firstLine = n) ↔ StartsAt place.width start ls n

/-- A line more is the start of a card, or not. -/
theorem startsAt_concat : StartsAt width start (ls ++ [line]) n ↔
    StartsAt width start ls n ∨ (n = start + ls.length ∧ begins width ls line = true) := by
  constructor
  · rintro ⟨before, l, after, heq, hn, hbegins⟩
    cases after using List.reverseRecOn with
    | nil =>
      obtain ⟨rfl, hl⟩ := List.append_inj' heq rfl
      obtain rfl : line = l := by simpa using hl
      exact .inr ⟨hn, hbegins⟩
    | append_singleton after m =>
      rw [← List.cons_append, ← List.append_assoc] at heq
      exact .inl ⟨before, l, after, (List.append_inj' heq rfl).1, hn, hbegins⟩
  · rintro (⟨before, l, after, rfl, hn, hbegins⟩ | ⟨hn, hbegins⟩)
    · exact ⟨before, l, after ++ [line], by simp, hn, hbegins⟩
    · exact ⟨ls, line, [], rfl, hn, hbegins⟩

namespace IsCut

variable {place : Place} {cards : List Card} {card : Card}

/-- Without lines there are no cards. -/
theorem nil (place : Place) (start : Nat) : IsCut place start [] [] :=
  ⟨rfl, by simp, by simp, by simp, by simp [StartsAt]⟩

/-- What stands in front of a card is the same when there is one more line. -/
theorem take_concat (h : IsCut place start ls cards) (hc : card ∈ cards) (line : String) :
    (ls ++ [line]).take (card.firstLine - start) = ls.take (card.firstLine - start) :=
  List.take_append_of_le_length (by have := h.within card hc; omega)

/-- A card stays inside the lines when there is one more. -/
theorem within_concat (h : IsCut place start ls cards) (hc : card ∈ cards) (line : String) :
    start ≤ card.firstLine ∧ card.firstLine < start + (ls ++ [line]).length := by
  have := h.within card hc
  rw [List.length_append, List.length_singleton]
  omega

/-- A line that is not blank is placed behind the others. -/
theorem placed_concat_of_solid (hsolid : Line.isBlank line = false) :
    (((ls ++ [line]).zipIdx start).filter (!Line.isBlank ·.1)).map (fun l ↦
      (Line.keep width l.1, l.2)) =
      ((ls.zipIdx start).filter (!Line.isBlank ·.1)).map (fun l ↦ (Line.keep width l.1, l.2)) ++
        [(Line.keep width line, start + ls.length)] := by
  rw [List.zipIdx_append, List.filter_append, List.map_append]
  simp [hsolid]

/-- A blank line belongs to no card. -/
theorem blank (h : IsCut place start ls cards) (hblank : Line.isBlank line = true) :
    IsCut place start (ls ++ [line]) cards where
  placed_eq := by
    rw [h.placed_eq, List.zipIdx_append, List.filter_append]
    simp [hblank]
  nonempty := h.nonempty
  within c hc := h.within_concat hc line
  block_eq c hc := by rw [h.take_concat hc, h.block_eq c hc]
  starts_iff n := by
    have hnone : begins place.width ls line = false := by rw [begins, hblank]; rfl
    simp [startsAt_concat, h.starts_iff, hnone]

/-- The card that a line starts. -/
def single (place : Place) (start : Nat) (ls : List String) (line : String) : Card :=
  ⟨.ofIndex (blanks ls), [Line.keep place.width line], place.path, start + ls.length, place.depth⟩

/-- A line that starts a card is a card of its own, behind the others. -/
theorem push (h : IsCut place start ls cards) (hsolid : Line.isBlank line = false)
    (hbegins : begins place.width ls line = true) :
    IsCut place start (ls ++ [line]) (cards ++ [single place start ls line]) where
  placed_eq := by
    rw [placed_concat_of_solid hsolid, ← h.placed_eq, List.flatMap_append]
    simp [Card.placed, single]
  nonempty := by
    rw [List.forall_mem_append, List.forall_mem_singleton]
    exact ⟨h.nonempty, List.cons_ne_nil _ _⟩
  within := by
    rw [List.forall_mem_append, List.forall_mem_singleton]
    exact ⟨fun c hc ↦ h.within_concat hc line, by simp [single]⟩
  block_eq := by
    rw [List.forall_mem_append, List.forall_mem_singleton]
    exact ⟨fun c hc ↦ by rw [h.take_concat hc, h.block_eq c hc], by simp [single]⟩
  starts_iff n := by
    simp only [startsAt_concat, ← h.starts_iff, hbegins, List.mem_append, List.mem_singleton,
      or_and_right, exists_or, exists_eq_left, and_true]
    rw [single, eq_comm (a := n)]

/-- A line that starts no card goes to the end of the last one. -/
theorem extend (h : IsCut place start ls (cards ++ [card])) (hsolid : Line.isBlank line = false)
    (hbegins : begins place.width ls line = false)
    (hend : card.firstLine + card.lines.length = start + ls.length) :
    IsCut place start (ls ++ [line])
      (cards ++ [{ card with lines := card.lines ++ [Line.keep place.width line] }]) where
  placed_eq := by
    rw [placed_concat_of_solid hsolid, ← h.placed_eq, List.flatMap_append, List.flatMap_append]
    simp [Card.placed, List.zipIdx_append, hend]
  nonempty := by
    have := h.nonempty
    rw [List.forall_mem_append, List.forall_mem_singleton] at this ⊢
    exact ⟨this.1, by simp⟩
  within := by
    have hwithin := fun c hc ↦ @within_concat _ _ _ _ c h hc line
    rw [List.forall_mem_append, List.forall_mem_singleton] at hwithin ⊢
    exact hwithin
  block_eq := by
    have hblock : ∀ c ∈ cards ++ [card], c.block =
        .ofIndex (blanks ((ls ++ [line]).take (c.firstLine - start))) :=
      fun c hc ↦ by rw [h.take_concat hc, h.block_eq c hc]
    rw [List.forall_mem_append, List.forall_mem_singleton] at hblock ⊢
    exact hblock
  starts_iff n := by
    have hstarts := h.starts_iff n
    simp only [List.mem_append, List.mem_singleton, or_and_right, exists_or,
      exists_eq_left] at hstarts ⊢
    simp [startsAt_concat, ← hstarts, hbegins]

end IsCut

/-! ## The scan -/

/-- The state of a scan, computed from the lines that it has read. -/
structure Abreast (place : Place) (start : Nat) (ls : List String) (s : Scan) : Prop where
  block_eq : s.block = blanks ls
  continued_eq : s.continued = moreAfter place.width false (sinceBlank ls)
  hasCode_eq : s.hasCode = codeAfter false (sinceBlank ls)
  isEmpty_eq : s.pending.isEmpty = (sinceBlank ls).isEmpty
  end_eq : s.pending.isEmpty = false → s.firstLine + s.pending.size = start + ls.length
  cut : IsCut place start ls (flushed place s).cards.toList

/-- Closing a card does not change what is known of the lines before. -/
theorem hasCode_flushed (place : Place) (s : Scan) : (flushed place s).hasCode = s.hasCode := by
  unfold flushed
  split_ifs <;> rfl

namespace Abreast

variable {place : Place} {s : Scan}

/-- At the start of a scan no line has been read. -/
theorem nil (place : Place) (start : Nat) : Abreast place start [] (Scan.start .cell) :=
  ⟨rfl, rfl, rfl, rfl, nofun, .nil place start⟩

/-- What the scan asks of a line is what the lines before say. -/
theorem begins_eq (h : Abreast place start ls s) (hsolid : Line.isBlank line = false) :
    begins place.width ls line = (s.pending.isEmpty || startsCard s line) := by
  rw [begins, hsolid, ← h.isEmpty_eq, ← h.hasCode_eq, ← h.continued_eq, starts, startsCard]
  cases s.pending.isEmpty <;> simp

/-- A blank line closes the card, and the block with it. -/
theorem closed (h : Abreast place start ls s) (hblank : Line.isBlank line = true) :
    Abreast place start (ls ++ [line]) (closed place s) := by
  have hfresh := isFresh_closed place s
  have hnone := sinceBlank_concat_of_blank ls hblank
  refine ⟨?_, ?_, ?_, ?_, ?_, ?_⟩
  · rw [blanks_concat, hblank, if_pos rfl, ← h.block_eq, ← block_flushed place s]
    rfl
  · rw [hnone, hfresh.continued]
    rfl
  · rw [hnone, hfresh.hasCode]
    rfl
  · rw [hnone, hfresh.pending]
    rfl
  · rw [hfresh.pending]
    nofun
  · rw [flushed_of_isFresh place hfresh]
    exact h.cut.blank hblank

/-- Behind the cards that are closed the line is the first of another one. -/
theorem cut_single (hs : s.pending.isEmpty = true) (hblock : s.block = blanks ls)
    (hcut : IsCut place start ls s.cards.toList) (hsolid : Line.isBlank line = false)
    (hbegins : begins place.width ls line = true) :
    IsCut place start (ls ++ [line])
      (flushed place (appended place (start + ls.length) line s)).cards.toList := by
  have hpending : s.pending = #[] := Array.isEmpty_iff.mp hs
  have hpush := hcut.push hsolid hbegins
  rw [IsCut.single, ← hblock] at hpush
  simpa [flushed, appended, hpending] using hpush

/-- A line that is not blank starts a card or goes on with the open one. -/
theorem cut_added (h : Abreast place start ls s) (hsolid : Line.isBlank line = false) :
    IsCut place start (ls ++ [line])
      (flushed place (added place (start + ls.length) line s)).cards.toList := by
  have hbegins := h.begins_eq hsolid
  have hcut := h.cut
  unfold added
  split_ifs with hstarts
  · rw [hstarts, Bool.or_true] at hbegins
    have hempty : (flushed place s).pending.isEmpty = true :=
      Array.isEmpty_iff.mpr (pending_flushed place s)
    exact cut_single hempty ((block_flushed place s).trans h.block_eq) hcut hsolid hbegins
  · rw [Bool.eq_false_iff.mpr hstarts, Bool.or_false] at hbegins
    cases hpending : s.pending.isEmpty with
    | true =>
      rw [flushed, if_pos hpending] at hcut
      exact cut_single hpending h.block_eq hcut hsolid (hbegins.trans hpending)
    | false =>
      rw [flushed, if_neg (by simp [hpending]), Array.toList_push] at hcut
      have hextend := hcut.extend hsolid (hbegins.trans hpending) (h.end_eq hpending)
      simpa [flushed, appended, hpending] using hextend

/-- The open card ends at the line that was read last. -/
theorem end_added (h : Abreast place start ls s) :
    (Reading.added place (start + ls.length) line s).firstLine +
      (Reading.added place (start + ls.length) line s).pending.size =
      start + (ls ++ [line]).length := by
  have hempty : (flushed place s).pending = #[] := pending_flushed place s
  rw [List.length_append, List.length_singleton]
  unfold Reading.added
  split_ifs with hstarts
  · simp [appended, hempty, Nat.add_assoc]
  · cases hpending : s.pending.isEmpty with
    | true => simp [appended, Array.isEmpty_iff.mp hpending, Nat.add_assoc]
    | false =>
      have hend := h.end_eq hpending
      simp only [appended, hpending, Bool.false_eq_true, if_false, Array.size_push]
      omega

/-- The state stays in step with the lines that were read, blank lines apart. -/
theorem added (h : Abreast place start ls s) (hsolid : Line.isBlank line = false) :
    Abreast place start (ls ++ [line]) (added place (start + ls.length) line s) := by
  have hsince := sinceBlank_concat_of_solid ls hsolid
  refine ⟨?_, ?_, ?_, ?_, fun _ ↦ h.end_added, h.cut_added hsolid⟩
  · rw [block_added, h.block_eq, blanks_concat, hsolid]
    rfl
  · rw [hsince, moreAfter_append]
    rfl
  · rw [hsince, codeAfter_append, ← h.hasCode_eq, codeAfter_cons, codeAfter_nil]
    change ((if startsCard s line then flushed place s else s).hasCode || !Line.isComment line) = _
    split_ifs
    · rw [hasCode_flushed]
    · rfl
  · rw [hsince]
    simp [Reading.added, appended]

/-- One line of the blocks. -/
theorem step (h : Abreast place start ls s) (hroom : blanks ls < Limits.blocks) {s' : Scan}
    (hstep : Reading.step place s (start + ls.length, line) = .ok s') :
    Abreast place start (ls ++ [line]) s' := by
  rw [Reading.step, if_neg (by rw [h.block_eq]; omega)] at hstep
  cases hblank : Line.isBlank line with
  | true =>
    rw [hblank, if_pos rfl] at hstep
    exact Except.ok.inj hstep ▸ h.closed hblank
  | false =>
    rw [hblank, if_neg Bool.false_ne_true] at hstep
    split_ifs at hstep
    exact Except.ok.inj hstep ▸ h.added hblank

end Abreast

/-- The lines with their numbers, the first of which is `start`. -/
def numberedFrom (start : Nat) (ls : List String) : List (Nat × String) :=
  (ls.zipIdx start).map Prod.swap

/-- Lines are numbered on through both stretches. -/
theorem numberedFrom_append (start : Nat) (ls ms : List String) :
    numberedFrom start (ls ++ ms) =
      numberedFrom start ls ++ numberedFrom (start + ls.length) ms := by
  rw [numberedFrom, List.zipIdx_append, List.map_append]
  rfl

/-- The lines of the blocks. -/
theorem abreast_foldlM {place : Place}
    (h : ∀ before line after, ls = before ++ line :: after → blanks before < Limits.blocks)
    {s : Scan} (hfold : (numberedFrom start ls).foldlM (step place) (Scan.start .cell) = .ok s) :
    Abreast place start ls s := by
  induction ls using List.reverseRecOn generalizing s with
  | nil =>
    obtain rfl := Except.ok.inj hfold
    exact .nil place start
  | append_singleton ls line ih =>
    rw [numberedFrom_append, List.foldlM_append] at hfold
    cases hs : (numberedFrom start ls).foldlM (step place) (Scan.start .cell) with
    | error e =>
      rw [hs] at hfold
      cases hfold
    | ok t =>
      rw [hs] at hfold
      have ht := ih (fun before l after heq ↦ h before l (after ++ [line]) (by simp [heq])) hs
      refine ht.step (h ls line [] rfl) ?_
      change (step place t (start + ls.length, line) >>= pure) = .ok s at hfold
      rwa [bind_pure] at hfold

/-! ## Decks -/

/-- The lines behind the title. -/
def body (ls : List String) : List String := (frontOf ls).2.drop 1

/-- The number of the first line behind the title. -/
def bodyStart (ls : List String) : Nat := ls.length - (body ls).length + 1

/-- How the cards of a deck stand in the lines behind its title, the first of which has the number
`start`. -/
structure IsPlaced (width start : Nat) (ls : List String) (cards : List Card) : Prop where
  /-- The lines of the cards are those of the blocks, in their order and with their numbers. -/
  placed_eq : cards.flatMap Card.placed = (content start ls).map fun l ↦ (Line.keep width l.1, l.2)
  nonempty : ∀ c ∈ cards, c.lines ≠ []
  /-- The block of a card is the number of blank lines before it. -/
  block_eq : ∀ c ∈ cards, c.block.index = blanks (ls.take (c.firstLine - start))
  /-- The first line of a block that is not blank starts a card. -/
  starts_first : ∀ before line after, ls = before ++ line :: after → blanks before < Limits.blocks →
    Line.isBlank line = false → (∀ prev ∈ before.getLast?, Line.isBlank prev = true) →
    ∃ c ∈ cards, c.firstLine = start + before.length
  /-- Which of the other lines start one. -/
  starts_iff : ∀ before prev line after, ls = before ++ prev :: line :: after →
  blanks before < Limits.blocks →
    Line.isBlank prev = false → Line.isBlank line = false →
    ((∃ c ∈ cards, c.firstLine = start + before.length + 1) ↔
      allBlank (Line.firstColumns line) = false ∧ Line.isComment line = false ∧
        asksForMore (Line.keep width prev) = false ∧ ∃ l ∈ sinceBlank (before ++ [prev]),
        Line.isComment l = false)

section Blocks

variable {place : Place} {cards : List Card}

/-- Whether a card starts at a line is told by the lines before it. -/
theorem startsAt_iff {after : List String} (width start : Nat) (h : ls = before ++ line :: after) :
    StartsAt width start ls (start + before.length) ↔ begins width before line = true := by
  refine ⟨fun ⟨before', line', after', heq, hn, hbegins⟩ ↦ ?_, fun hbegins ↦
    ⟨before, line, after, h, rfl, hbegins⟩⟩
  obtain ⟨rfl, hline⟩ := List.append_inj (h.symm.trans heq) (Nat.add_left_cancel hn)
  rwa [(List.cons.inj hline).1]

/-- Behind a line that is not blank the marks of a start are needed. -/
theorem begins_concat_iff (hprev : Line.isBlank prev = false) (hsolid : Line.isBlank line = false) :
    begins width (before ++ [prev]) line = true ↔ allBlank (Line.firstColumns line) = false ∧
      Line.isComment line = false ∧ asksForMore (Line.keep width prev) = false ∧
        ∃ l ∈ sinceBlank (before ++ [prev]), Line.isComment l = false := by
  have hmore : moreAfter width false (sinceBlank (before ++ [prev])) =
      asksForMore (Line.keep width prev) := by
    rw [sinceBlank_concat_of_solid _ hprev, moreAfter_append]
    rfl
  have hempty : (sinceBlank (before ++ [prev])).isEmpty = false := by
    simp [sinceBlank_concat_of_solid _ hprev]
  rw [begins, hsolid, hempty, starts, hmore, codeAfter]
  simp only [Bool.not_false, Bool.true_and, Bool.false_or, Bool.and_eq_true,
    Bool.not_eq_true', List.any_eq_true]
  constructor
  · rintro ⟨⟨⟨hcolumns, hasks⟩, hcode⟩, hany⟩
    exact ⟨hcolumns, hcode, hasks, hany⟩
  · rintro ⟨hcolumns, hcode, hasks, hany⟩
    exact ⟨⟨⟨hcolumns, hasks⟩, hcode⟩, hany⟩

/-- A line of a block is among the lines up to the last blank one that counts. -/
theorem exists_upToBlank_eq {after : List String} (h : ls = before ++ line :: after)
    (hblanks : blanks before < n) (hsolid : Line.isBlank line = false) :
    ∃ after', upToBlank n ls = before ++ line :: after' := by
  obtain ⟨m, hm⟩ := Nat.exists_eq_add_of_lt hblanks
  refine ⟨upToBlank (m + 1) after, ?_⟩
  rw [h, upToBlank_append hblanks, show n - blanks before = m + 1 by omega, upToBlank,
    if_neg (by simp [hsolid])]

/-- Right behind a blank line, or at the start, nothing stands in the block yet. -/
theorem sinceBlank_eq_nil (h : ∀ prev ∈ before.getLast?, Line.isBlank prev = true) :
    sinceBlank before = [] := by
  cases before using List.reverseRecOn with
  | nil => rfl
  | append_singleton before prev => exact sinceBlank_concat_of_blank before (h prev (by simp))

/-- There are as many blocks as the number of the last one says. -/
theorem index_ofIndex {n : Nat} (h : n < Limits.blocks) : (Block.ofIndex n).index = n := by
  have hlt : n < 3 := h
  interval_cases n <;> rfl

/-- Cards that are cut from lines are placed in them. -/
theorem IsCut.isPlaced (h : IsCut place start (upToBlank Limits.blocks ls) cards) :
    IsPlaced place.width start ls cards where
  placed_eq := h.placed_eq
  nonempty := h.nonempty
  block_eq c hc := by
    obtain ⟨hge, hlt⟩ := h.within c hc
    have hlength : c.firstLine - start < (upToBlank Limits.blocks ls).length := by omega
    have hsplit := (List.take_append_drop (c.firstLine - start) (upToBlank Limits.blocks ls)).symm
    rw [List.drop_eq_getElem_cons hlength] at hsplit
    have hroom := blanks_lt_of_upToBlank hsplit
    obtain ⟨rest, hrest, -⟩ := exists_eq_upToBlank_append Limits.blocks ls
    rw [h.block_eq c hc, index_ofIndex hroom]
    conv_rhs => rw [hrest, List.take_append_of_le_length hlength.le]
  starts_first before line after heq hblanks hsolid hfirst := by
    obtain ⟨after', hact⟩ := exists_upToBlank_eq heq hblanks hsolid
    refine (h.starts_iff _).mpr ((startsAt_iff _ _ hact).mpr ?_)
    rw [begins, hsolid, sinceBlank_eq_nil hfirst]
    rfl
  starts_iff before prev line after heq hblanks hprev hsolid := by
    have hbefore : blanks (before ++ [prev]) < Limits.blocks := by
      rw [blanks_concat, hprev]
      exact hblanks
    obtain ⟨after', hact⟩ :=
      exists_upToBlank_eq (heq.trans (List.append_cons before prev _)) hbefore hsolid
    have hstarts := startsAt_iff place.width start hact
    rw [List.length_append, List.length_singleton, ← Nat.add_assoc] at hstarts
    rw [h.starts_iff, hstarts, begins_concat_iff hprev hsolid]

/-- The cards of lines stand in them. -/
theorem isPlaced_of_cut {closed : Nat}
    (h : cut place .cell (numberedFrom start ls) = .ok (cards, closed)) :
    IsPlaced place.width start ls cards := by
  obtain ⟨rest, hrest, hfull⟩ := exists_eq_upToBlank_append Limits.blocks ls
  unfold cut at h
  cases hfold : (numberedFrom start ls).foldlM (step place) (Scan.start .cell) with
  | error e =>
    rw [hfold] at h
    cases h
  | ok s =>
    rw [hfold] at h
    obtain ⟨rfl, -⟩ := Prod.mk.inj (Except.ok.inj h)
    rw [hrest, numberedFrom_append, List.foldlM_append] at hfold
    cases hact : (numberedFrom start (upToBlank Limits.blocks ls)).foldlM (step place)
        (Scan.start .cell) with
    | error e =>
      rw [hact] at hfold
      cases hfold
    | ok t =>
      rw [hact] at hfold
      have ht := abreast_foldlM (fun before line after ↦ blanks_lt_of_upToBlank) hact
      -- Behind the last block the scan changes nothing more.
      have hlast : (numberedFrom (start + (upToBlank Limits.blocks ls).length) rest).foldlM
          (step place) t = .ok t := by
        rcases hfull with rfl | hfull
        · rfl
        · exact foldlM_step_of_full place (ht.block_eq.trans hfull).ge _
      obtain rfl : t = s := Except.ok.inj (hlast.symm.trans hfold)
      exact ht.cut.isPlaced

end Blocks

/-- The body of a deck stands at its end. -/
theorem body_isSuffix (ls : List String) : body ls <:+ ls := by
  refine (List.drop_suffix 1 _).trans ?_
  cases ls with
  | nil => exact List.suffix_rfl
  | cons first rest =>
    rw [frontOf]
    split_ifs
    · exact (List.drop_suffix 1 _).trans (List.dropWhile_suffix _)
    · exact List.suffix_rfl

/-- The lines of a deck are numbered from one. -/
theorem numbered_eq (options : ReadOptions) (text : List Char) :
    numbered options text = numberedFrom 1 (normalLines options text) := by
  rw [numbered, numberedFrom, normalLines, List.zipIdx_map, List.map_map]
  rfl

@[simp] theorem length_numberedFrom (start : Nat) (ls : List String) :
    (numberedFrom start ls).length = ls.length := by
  rw [numberedFrom, List.length_map, List.length_zipIdx]

theorem map_snd_numberedFrom (start : Nat) (ls : List String) :
    (numberedFrom start ls).map Prod.snd = ls := by
  rw [numberedFrom, List.map_map]
  exact List.zipIdx_map_fst start ls

/-- What is left of numbered lines keeps its numbers. -/
theorem eq_numberedFrom_of_isSuffix {ns : List (Nat × String)} (h : ns <:+ numberedFrom 1 ls) :
    ns = numberedFrom (ls.length - ns.length + 1) (ns.map Prod.snd) := by
  obtain ⟨front, hfront⟩ := h
  have hlength := congrArg List.length hfront
  rw [List.length_append, length_numberedFrom] at hlength
  rw [← List.take_append_drop front.length ls, numberedFrom_append] at hfront
  have hns := (List.append_inj hfront (by simp; omega)).2
  rw [hns, map_snd_numberedFrom, length_numberedFrom]
  congr 1
  simp only [List.length_take, List.length_drop]
  omega

variable {options : ReadOptions} {files : Files.Source} {path text : String} {deck : RawDeck}

/-- Behind the message and the title the lines of the body have their own numbers. -/
theorem splitMessage_drop_eq (options : ReadOptions) (text : List Char) :
    (splitMessage (numbered options text)).2.drop 1 =
      numberedFrom (bodyStart (normalLines options text)) (body (normalLines options text)) := by
  have hfront := frontOf_map (numbered options text)
  rw [map_snd_numbered] at hfront
  have hbody : ((splitMessage (numbered options text)).2.drop 1).map Prod.snd =
      body (normalLines options text) := by
    rw [body, hfront, List.map_drop]
  have hlength : ((splitMessage (numbered options text)).2.drop 1).length =
      (body (normalLines options text)).length := by
    rw [← hbody, List.length_map]
  have hsuffix :
      (splitMessage (numbered options text)).2.drop 1 <:+ numberedFrom 1
        (normalLines options text) := by
    rw [← numbered_eq]
    refine (List.drop_suffix 1 _).trans ?_
    unfold splitMessage
    split
    · next hnil => rw [hnil]
    · next first rest hnumbered =>
      split_ifs
      · exact hnumbered ▸ (List.drop_suffix 1 _).trans (List.dropWhile_suffix _)
      · exact hnumbered ▸ List.suffix_rfl
  refine (eq_numberedFrom_of_isSuffix hsuffix).trans ?_
  rw [hbody, hlength, bodyStart]

/-- Each line of the blocks of a deck that asks for no other file is a line of one card: the cards
stand in the lines behind the title, one behind the other. -/
theorem isPlaced_of_ofText (hwidth : options.version.width = .ok width)
    (h : RawDeck.ofText options files path text = .ok deck)
    (hown : ∀ c ∈ deck.cards, c.target? = none) :
    body (normalLines options text.toList) <:+ normalLines options text.toList ∧
      IsPlaced width (bodyStart (normalLines options text.toList))
        (body (normalLines options text.toList)) deck.cards ∧
      ∀ c ∈ deck.cards, c.path = path ∧ c.depth = 0 := by
  have hcards := (readsDeck_of_ofText h).ownCards_eq hwidth hown
  refine ⟨body_isSuffix _, ?_, (of_ownCards hcards).2⟩
  unfold ownCards at hcards
  split_ifs at hcards
  rw [splitMessage_drop_eq] at hcards
  cases hcut : cut ⟨options, width, path, 0⟩
    .cell (numberedFrom (bodyStart (normalLines options text.toList))
      (body (normalLines options text.toList))) with
  | error e =>
    rw [hcut] at hcards
    cases hcards
  | ok scanned =>
    rw [hcut] at hcards
    obtain ⟨cards, closed⟩ := scanned
    obtain rfl : cards = deck.cards := Except.ok.inj hcards
    exact isPlaced_of_cut hcut

/-- A card with a comment before it and two kinds of continued lines, another one, and one of the
next block. -/
theorem isPlaced_of_continued :
    ∃ (options : ReadOptions) (files : Files.Source) (text : String)
      (deck : RawDeck), options.version.width = .ok 128 ∧ RawDeck.ofText options files "deck" text =
      .ok deck ∧ (∀ c ∈ deck.cards, c.target? = none) ∧ deck.cards.map Card.firstLine =
      [2, 6, 8] ∧ IsPlaced 128 2 ["c a", "1 0 -1 &", "2", "        3", "2 0 1", "", "1 so 5"]
        deck.cards := by
  let options : ReadOptions := ⟨.standard, true⟩
  let files : Files.Source := fun _ ↦ .error .notFound
  let text := "t\nc a\n1 0 -1 &\n2\n\t3\n2 0 1\n\n1 so 5\n"
  let deck : RawDeck :=
    ⟨none, some "t",
      [⟨.cell, ["c a", "1 0 -1 &", "2", "        3"], "deck", 2, 0⟩,
      ⟨.cell, ["2 0 1"], "deck", 6, 0⟩, ⟨.surface, ["1 so 5"], "deck", 8, 0⟩], [], false⟩
  have hdeck : RawDeck.ofText options files "deck" text = .ok deck := by decide +kernel
  have hown : ∀ c ∈ deck.cards, c.target? = none := by decide +kernel
  have hstart : bodyStart (normalLines options text.toList) = 2 := by decide +kernel
  have hbody : body (normalLines options text.toList) =
      ["c a", "1 0 -1 &", "2", "        3", "2 0 1", "", "1 so 5"] := by decide +kernel
  have hplaced := (isPlaced_of_ofText rfl hdeck hown).2.1
  rw [hstart, hbody] at hplaced
  exact ⟨options, files, text, deck, rfl, hdeck, hown, rfl, hplaced⟩

end Reading

end TransportDeck
