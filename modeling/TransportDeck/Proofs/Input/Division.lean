import TransportDeck.Proofs.Input.Blocks

/-!
# How a block is divided

The lines of a block are divided at the lines that start a card.  What the reader remembers of the
lines before is whether one was code and whether the last one asks for more.  So the lines in the
middle of a card can be replaced by another one, as long as it shows the reader the same.
-/

namespace TransportDeck.Reading

open Text

/-! ## Lines that start a card -/

/-- Whether a line starts a card behind another one. -/
def starts (hasCode continued : Bool) (line : String) : Bool :=
  !allBlank (Line.firstColumns line) && !continued && !Line.isComment line && hasCode

/-- Whether there is code, once these lines have been read. -/
def codeAfter (hasCode : Bool) (ls : List String) : Bool := hasCode || ls.any (!Line.isComment ·)

/-- Whether more is asked for, once these lines have been read. -/
def moreAfter (width : Nat) (continued : Bool) (ls : List String) : Bool :=
  match ls.getLast? with
  | some line => asksForMore (Line.keep width line)
  | none => continued

/-- None of the lines starts a card. -/
def Continues (width : Nat) : (hasCode continued : Bool) → List String → Prop
  | _, _, [] => True
  | hasCode, continued, line :: rest => starts hasCode continued line = false ∧
      Continues width (hasCode || !Line.isComment line) (asksForMore (Line.keep width line)) rest

/-- Each card starts where the one before ends.  Its other lines go on with it, as the first one
would if more had been asked for. -/
def AreCards (width : Nat) : (hasCode continued : Bool) → List (List String) → Prop
  | _, _, [] => True
  | hasCode, continued, card :: cards =>
      (∃ first ∈ card.head?, starts hasCode continued first = true) ∧
      Continues width hasCode true card ∧ AreCards width (codeAfter hasCode card)
        (moreAfter width continued card) cards

/-- The cards of a block. -/
def IsDivision (width : Nat) : List (List String) → Prop
  | [] => True
  | card :: cards => card ≠ [] ∧ Continues width false false card ∧
      AreCards width (codeAfter false card) (moreAfter width false card) cards

variable {width : Nat} {hasCode continued : Bool} {pending ls ms bs : List String} {line : String}
  {cards before after : List (List String)} {card : List String}

@[simp] theorem codeAfter_nil : codeAfter hasCode [] = hasCode := Bool.or_false _

theorem codeAfter_cons :
    codeAfter hasCode (line :: ls) = codeAfter (hasCode || !Line.isComment line) ls := by
  rw [codeAfter, codeAfter, List.any_cons, Bool.or_assoc]

@[simp] theorem moreAfter_nil : moreAfter width continued [] = continued := rfl

theorem moreAfter_cons : moreAfter width continued (line :: ls) =
    moreAfter width (asksForMore (Line.keep width line)) ls := by
  cases ls with
  | nil => rfl
  | cons m ls => rw [moreAfter, moreAfter, List.getLast?_cons_cons]; rfl

/-- Whether there was code is carried along the lines. -/
theorem codeAfter_append : codeAfter hasCode (ls ++ ms) = codeAfter (codeAfter hasCode ls) ms := by
  rw [codeAfter, codeAfter, codeAfter, List.any_append, Bool.or_assoc]

/-- Whether more is asked for is told by the last of the lines. -/
theorem moreAfter_append : moreAfter width continued (ls ++ ms) =
    moreAfter width (moreAfter width continued ls) ms := by
  induction ls generalizing continued with
  | nil => rfl
  | cons l ls ih => rw [List.cons_append, moreAfter_cons, moreAfter_cons, ih]

/-- Lines go on with a card in two stretches if they do in one. -/
theorem continues_append : Continues width hasCode continued (ls ++ ms) ↔
    Continues width hasCode continued ls ∧
      Continues width (codeAfter hasCode ls) (moreAfter width continued ls) ms := by
  induction ls generalizing hasCode continued with
  | nil => simp [Continues]
  | cons l ls ih =>
    rw [List.cons_append, Continues, Continues, ih, codeAfter_cons, moreAfter_cons, and_assoc]

/-- A line that starts no card behind another one starts none. -/
theorem opens_eq_starts (hne : pending ≠ []) :
    opens hasCode continued pending line = starts hasCode continued line := by
  have hpending : pending.isEmpty = false := by simpa using hne
  rw [opens, hpending, Bool.not_false, Bool.and_true, starts]

/-- A line that does not start a card opens none. -/
theorem opens_of_not_starts (h : starts hasCode continued line = false) :
    opens hasCode continued pending line = false := by
  unfold opens
  rw [starts] at h
  rw [h, Bool.false_and]

/-! ## Divisions -/

/-- Lines that go on with a card are added to it. -/
theorem divide_append (h : Continues width hasCode continued ls) (rest : List String) :
    divide width hasCode continued pending (ls ++ rest) =
      divide width (codeAfter hasCode ls) (moreAfter width continued ls)
        (pending ++ ls.map (Line.keep width)) rest := by
  induction ls generalizing hasCode continued pending with
  | nil => simp
  | cons l ls ih =>
    rw [List.cons_append, divide]
    simp only [opens_of_not_starts h.1, Bool.false_eq_true, if_false]
    rw [ih h.2, codeAfter_cons, moreAfter_cons, List.map_cons,
      List.append_assoc, List.singleton_append]

/-- Each stretch of lines that starts a card, and goes on with it, becomes a card. -/
theorem divide_of_areCards (hne : pending ≠ []) (h : AreCards width hasCode continued cards) :
    divide width hasCode continued pending cards.flatten =
      pending :: cards.map (·.map (Line.keep width)) := by
  induction cards generalizing hasCode continued pending with
  | nil =>
    have hpending : pending.isEmpty = false := by simpa using hne
    rw [List.flatten_nil, divide, pendingCard, hpending]
    rfl
  | cons card cards ih =>
    obtain ⟨⟨line, hfirst, hstarts⟩, hcard, hcards⟩ := h
    obtain ⟨rest, rfl⟩ := List.head?_eq_some_iff.mp hfirst
    have hopens : opens hasCode continued pending line = _ := opens_eq_starts hne
    rw [hstarts] at hopens
    rw [codeAfter_cons, moreAfter_cons] at hcards
    rw [List.flatten_cons, List.cons_append, divide]
    simp only [hopens, if_true]
    rw [divide_append hcard.2, ih (by simp) hcards, List.map_cons,
      List.map_cons, List.singleton_append]

/-- Lines that are a division into cards are divided so. -/
theorem divide_of_isDivision (h : IsDivision width cards) :
    divide width false false [] cards.flatten = cards.map (·.map (Line.keep width)) := by
  cases cards with
  | nil => rfl
  | cons card cards =>
    obtain ⟨hne, hcard, hcards⟩ := h
    rw [List.flatten_cons, divide_append hcard, List.nil_append,
      divide_of_areCards (by simpa using hne) hcards, List.map_cons]

/-- All lines are divided into those that go on with the open card, and into further cards. -/
theorem exists_areCards (width : Nat) (hasCode continued : Bool) (ls : List String) : ∃ ms cards,
    ls = ms ++ cards.flatten ∧ Continues width hasCode continued ms ∧
      AreCards width (codeAfter hasCode ms) (moreAfter width continued ms) cards := by
  induction ls generalizing hasCode continued with
  | nil => exact ⟨[], [], rfl, trivial, trivial⟩
  | cons line ls ih =>
    obtain ⟨ms, cards, rfl, hms, hcards⟩ :=
      ih (hasCode || !Line.isComment line) (asksForMore (Line.keep width line))
    cases hstarts : starts hasCode continued line with
    | true =>
      refine ⟨[], (line :: ms) :: cards, by simp, trivial, ?_⟩
      rw [codeAfter_nil, moreAfter_nil, AreCards, codeAfter_cons, moreAfter_cons]
      exact ⟨⟨line, rfl, hstarts⟩, ⟨by simp [starts], hms⟩, hcards⟩
    | false =>
      refine ⟨line :: ms, cards, rfl, ⟨hstarts, hms⟩, ?_⟩
      rwa [codeAfter_cons, moreAfter_cons]

/-- Every block can be divided. -/
theorem exists_isDivision (width : Nat) (ls : List String) :
    ∃ cards, ls = cards.flatten ∧ IsDivision width cards := by
  obtain ⟨ms, cards, rfl, hms, hcards⟩ := exists_areCards width false false ls
  cases ms with
  | nil =>
    cases cards with
    | nil => exact ⟨[], rfl, trivial⟩
    | cons card cards =>
      -- Without a line of code before it no line starts a card.
      obtain ⟨⟨line, -, hstarts⟩, -⟩ := hcards
      simp [starts] at hstarts
  | cons m ms => exact ⟨(m :: ms) :: cards, rfl, List.cons_ne_nil _ _, hms, hcards⟩

/-- The cards of a block are its division. -/
theorem isDivision_divide (h : ∀ l ∈ cards.flatten, Line.keep width l = l)
    (hdivide : divide width false false [] cards.flatten = cards) : IsDivision width cards := by
  obtain ⟨cards', hflatten, hcards'⟩ := exists_isDivision width cards.flatten
  have hself : cards'.map (·.map (Line.keep width)) = cards' := by
    refine (List.map_congr_left fun card hcard ↦ ?_).trans (List.map_id _)
    refine (List.map_congr_left fun l hl ↦ h l ?_).trans (List.map_id _)
    rw [hflatten]
    exact List.mem_flatten_of_mem hcard hl
  rw [hflatten, divide_of_isDivision hcards', hself] at hdivide
  exact hdivide ▸ hcards'

/-! ## Replacing lines -/

/-- In place of some lines of a card another one can stand: the reader takes it for code, and for
the start of a card if it took the first of them for one. -/
structure Condenses (ms : List String) (line : String) : Prop where
  exists_head : ∃ first rest, ms = first :: rest ∧ Line.isComment first = false ∧
    allBlank (Line.firstColumns line) = allBlank (Line.firstColumns first)
  code : Line.isComment line = false

/-- The line behind asks for more if the lines before did; at the end of a card it may also ask for
nothing. -/
def EndsAlike (width : Nat) (ms : List String) (line : String) (bs : List String) : Prop :=
  asksForMore (Line.keep width line) = moreAfter width false ms ∨
    bs = [] ∧ asksForMore (Line.keep width line) = false

namespace Condenses

variable (h : Condenses ms line)
include h

theorem codeAfter_eq (hasCode : Bool) : codeAfter hasCode [line] = codeAfter hasCode ms := by
  obtain ⟨first, rest, rfl, hcode, -⟩ := h.exists_head
  simp [codeAfter, hcode, h.code]

theorem moreAfter_of_ne_nil : moreAfter width continued ms = moreAfter width false ms := by
  obtain ⟨first, rest, rfl, -⟩ := h.exists_head
  rw [moreAfter_cons, moreAfter_cons]

/-- A line starts a card if the first of the lines in its place does. -/
theorem starts_eq {first : String} {rest : List String} (hms : ms = first :: rest) :
    starts hasCode continued line = starts hasCode continued first := by
  obtain ⟨first', rest', hms', hcode, hcolumns⟩ := h.exists_head
  obtain ⟨rfl, rfl⟩ := List.cons.inj (hms.symm.trans hms')
  rw [starts, starts, h.code, hcode, hcolumns]

/-- Lines may be exchanged for one that ends as they do. -/
theorem continues (hends : EndsAlike width ms line bs)
    (hms : Continues width hasCode continued (ms ++ bs)) :
    Continues width hasCode continued (line :: bs) := by
  obtain ⟨hms, hbs⟩ := continues_append.mp hms
  rw [h.moreAfter_of_ne_nil, ← h.codeAfter_eq] at hbs
  obtain ⟨first, rest, heq, -⟩ := h.exists_head
  refine ⟨?_, ?_⟩
  · rw [h.starts_eq heq]
    rw [heq] at hms
    exact hms.1
  · rcases hends with hasks | ⟨rfl, -⟩
    · rw [hasks]
      simpa [codeAfter] using hbs
    · trivial

end Condenses

/-- What asks for nothing is followed by whatever follows it. -/
theorem AreCards.of_not_continued (h : AreCards width hasCode continued cards) :
    AreCards width hasCode false cards := by
  cases cards with
  | nil => trivial
  | cons card cards =>
    have hnone : continued = false := by
      obtain ⟨⟨first, -, hstarts⟩, -⟩ := h
      simp only [starts, Bool.and_eq_true] at hstarts
      simpa using hstarts.1.1.2
    rwa [← hnone]

section Replace

variable (h : Condenses ms line) (hends : EndsAlike width ms line bs)
include h hends

/-- Lines in the middle of a card may be exchanged for one that ends as they do. -/
theorem continues_replace (hcard : Continues width hasCode continued (ls ++ (ms ++ bs))) :
    Continues width hasCode continued (ls ++ line :: bs) := by
  obtain ⟨hls, hms⟩ := continues_append.mp hcard
  exact continues_append.mpr ⟨hls, h.continues hends hms⟩

/-- The cards behind it are told apart as before. -/
theorem areCards_after (hcards : AreCards width (codeAfter hasCode (ls ++ (ms ++ bs)))
      (moreAfter width continued (ls ++ (ms ++ bs))) cards) :
    AreCards width (codeAfter hasCode (ls ++ line :: bs))
      (moreAfter width continued (ls ++ line :: bs)) cards := by
  have hcode : codeAfter hasCode (ls ++ (ms ++ bs)) = codeAfter hasCode (ls ++ line :: bs) := by
    rw [← List.singleton_append, codeAfter_append, codeAfter_append, ← h.codeAfter_eq,
      ← codeAfter_append, ← codeAfter_append]
  rw [hcode] at hcards
  cases bs with
  | cons b bs =>
    have hmore : moreAfter width continued (ls ++ (ms ++ b :: bs)) =
        moreAfter width continued (ls ++ line :: b :: bs) := by
      rw [moreAfter_append, moreAfter_append, moreAfter_append, moreAfter_cons,
        moreAfter_cons, moreAfter_cons]
    rwa [← hmore]
  | nil =>
    rw [moreAfter_append, moreAfter_cons, moreAfter_nil]
    rcases hends with hasks | ⟨-, hasks⟩
    · rw [moreAfter_append, List.append_nil, h.moreAfter_of_ne_nil] at hcards
      rwa [hasks]
    · rw [hasks]
      exact hcards.of_not_continued

/-- Lines in one of the cards may be exchanged for one that ends as they do. -/
theorem areCards_replace
    (hcards : AreCards width hasCode continued (before ++ (ls ++ (ms ++ bs)) :: after)) :
    AreCards width hasCode continued (before ++ (ls ++ line :: bs) :: after) := by
  induction before generalizing hasCode continued with
  | cons card before ih => exact ⟨hcards.1, hcards.2.1, ih hcards.2.2⟩
  | nil =>
    obtain ⟨hstarts, hcard, hafter⟩ := hcards
    refine ⟨?_, continues_replace h hends hcard, areCards_after h hends hafter⟩
    cases ls with
    | cons l ls => exact hstarts
    | nil =>
      obtain ⟨first, rest, rfl, -⟩ := h.exists_head
      obtain ⟨first', hfirst', hstarts⟩ := hstarts
      obtain rfl : first = first' := Option.some.inj hfirst'
      exact ⟨line, rfl, by rwa [h.starts_eq rfl]⟩

/-- A block stays divided as it is when lines in the middle of a card are replaced. -/
theorem isDivision_replace (hdivision : IsDivision width (before ++ (ls ++ (ms ++ bs)) :: after)) :
    IsDivision width (before ++ (ls ++ line :: bs) :: after) := by
  cases before with
  | cons card before => exact ⟨hdivision.1, hdivision.2.1, areCards_replace h hends hdivision.2.2⟩
  | nil =>
    obtain ⟨-, hcard, hafter⟩ := hdivision
    exact ⟨by simp, continues_replace h hends hcard, areCards_after h hends hafter⟩

end Replace

end TransportDeck.Reading
