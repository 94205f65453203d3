import TransportDeck.Deck.Processing
import TransportDeck.Proofs.Input.Reports

/-!
# Policies for rejected cards

Whether a card is rejected is settled by the card alone.  The policies differ in what they make of a
rejection: it is an error of the deck or a warning about it, or it stops the work.
-/

namespace TransportDeck

/-! ## Single cards -/

namespace Card

def rejection? (c : Card) : Option Rejection :=
  match c.parse with
  | .ok _ => none
  | .error errors => some (.of c errors)

/-- What is reported about a card that is not rejected. -/
def remarks (c : Card) : List Warning :=
  match c.parse with
  | .ok (.verbatim v) => [Verdict.verbatimWarning c v]
  | _ => []

/-- What is reported in place of an error if rejections are warnings: the message of the error, at
its line. -/
def downgrades (c : Card) : List Warning :=
  (c.rejection?.map fun r ↦ ⟨.downgradedError, r.message, some r.path, some r.line⟩).toList

def verdict (check : Bool) (c : Card) : Verdict := .of check c c.parse

/-- The rejection of the card, if it stops the work. -/
def stop? (o : ProcessOptions) (c : Card) : Option Rejection :=
  c.rejection?.filter fun r ↦ r.isUnsupported || o.failFast

variable (check : Bool) (c : Card)

@[simp] theorem card_verdict : (c.verdict check).card = c := by
  unfold verdict Verdict.of
  split <;> rfl

@[simp] theorem rejection_verdict : (c.verdict check).rejection = c.rejection? := by
  unfold verdict rejection? Verdict.of
  split <;> simp_all

/-- A rejected card is kept verbatim under every policy. -/
theorem record_verdict : (c.verdict check).record = (c.verdict false).record := by
  unfold verdict Verdict.of
  split <;> rfl

theorem warnings_verdict :
    (c.verdict check).warnings = c.remarks ++ if check then c.downgrades else [] := by
  unfold verdict downgrades rejection? remarks Verdict.of
  split
  · next h => simp [h]
  · next r hr h =>
    rw [h]
    cases r <;> simp at hr ⊢
  · next h =>
    rw [h]
    cases check <;> rfl

variable {c} {o : ProcessOptions} {r : Rejection}

theorem stop?_eq_some_iff :
    c.stop? o = some r ↔ c.rejection? = some r ∧ (r.isUnsupported || o.failFast) = true :=
  Option.filter_eq_some_iff

theorem stop?_eq_none_iff :
    c.stop? o = none ↔ ∀ r, c.rejection? = some r → (r.isUnsupported || o.failFast) = false := by
  rw [stop?, Option.filter_eq_none_iff]
  simp

theorem fatal?_verdict : (c.verdict o.check).fatal? o = c.stop? o := by
  rw [Verdict.fatal?, rejection_verdict, stop?]

end Card

/-! ## Whole decks -/

namespace Processing

variable (o : ProcessOptions)

/-- What a sequence ends in. -/
theorem run_bind_fst {α β : Type} (m : Processing α) (f : α → Processing β)
    (entries : Array Entry) : ((m >>= f).run entries).1 =
      match (m.run entries).1 with
      | .ok a => ((f a).run (m.run entries).2).1
      | .error e => .error e := by
  have hbind : (m >>= f).run entries =
      (ExceptT.bindCont f (m.run entries).1).run (m.run entries).2 := rfl
  rw [hbind]
  cases (m.run entries).1 <;> rfl

/-- A card is judged whatever has been logged before. -/
theorem run_judge_fst (c : Card) (entries : Array Entry) : ((judge o c).run entries).1 =
    match c.stop? o with
    | some r => .error (.rejected r)
    | none => .ok (c.verdict o.check) := by
  rw [← Card.fatal?_verdict, judge, run_bind_fst]
  change ((match (c.verdict o.check).fatal? o with
    | some r => throw (.rejected r)
    | none => pure (c.verdict o.check) : Processing Verdict).run _).1 = _
  cases (c.verdict o.check).fatal? o <;> rfl

/-- The first card that stops the work decides. -/
theorem run_mapM_judge_fst (cards : List Card) (entries : Array Entry) :
    ((cards.mapM (judge o)).run entries).1 =
      match cards.findSome? (·.stop? o) with
      | some r => .error (.rejected r)
      | none => .ok (cards.map (·.verdict o.check)) := by
  induction cards generalizing entries with
  | nil => rfl
  | cons c cards ih =>
    rw [List.mapM_cons, List.findSome?_cons, run_bind_fst, run_judge_fst]
    cases c.stop? o with
    | some r => rfl
    | none =>
      dsimp only
      rw [run_bind_fst, ih]
      cases cards.findSome? (·.stop? o) <;> rfl

end Processing

namespace Deck

variable (o : ProcessOptions) (files : Files.Source) (path text : String)

/-- A deck is read, and then its cards are judged. -/
theorem ofText_eq : ofText o files path text =
    match RawDeck.ofText o.reading files path text with
    | .error e => .error (.reading e)
    | .ok raw => match raw.cards.findSome? (·.stop? o) with
      | some r => .error (.rejected r)
      | none => .ok (ofVerdicts o raw (raw.cards.map (·.verdict o.check))) := by
  have hread (entries : Array Entry) : ((Processing.reading path
      (Reading.readText o.reading files path text.toList)).run entries).1 =
      (RawDeck.ofText o.reading files path text).mapError .reading := by
    unfold RawDeck.ofText Processing.reading
    rcases (Reading.readText o.reading files path text.toList).run .empty with ⟨_ | _, _⟩ <;> rfl
  rw [ofText, Processing.text, Processing.run_bind_fst, hread]
  cases RawDeck.ofText o.reading files path text with
  | error e => rfl
  | ok raw =>
    simp only [Except.mapError]
    rw [Processing.judgeAll, Processing.run_bind_fst, Processing.run_mapM_judge_fst]
    cases raw.cards.findSome? (·.stop? o) <;> rfl

end Deck

/-! ## Three policies -/

/-- What the policies make of one deck: by default (`d`), checking (`c`) and failing fast (`f`). -/
structure PoliciesAgree (read : Except ReadError RawDeck) (d c f : Except DeckError Deck) :
    Prop where
  /-- What stops the work by default stops it when checking. -/
  fails_iff (e : DeckError) : d = .error e ↔ c = .error e
  /-- The work stops where reading does, or at the first card that asks for what is not
  supported. -/
  error_iff (e : DeckError) : d = .error e ↔
    (∃ e', read = .error e' ∧ e = .reading e') ∨
    ∃ raw before card after r, read = .ok raw ∧ raw.cards = before ++ card :: after ∧
      (∀ b ∈ before, ∀ r, b.rejection? = some r → r.isUnsupported = false) ∧
      card.rejection? = some r ∧ r.isUnsupported = true ∧ e = .rejected r
  /-- Checking gives the same deck, with a warning for each error, at its place among the warnings
  about the cards.  The warning has the message, the file and the line of the error.  By default
  there is no such warning. -/
  checked (deck : Deck) : d = .ok deck → ∃ checked raw, c = .ok checked ∧ read = .ok raw ∧
    checked.message = deck.message ∧ checked.title = deck.title ∧ checked.records = deck.records ∧
    checked.terminated = deck.terminated ∧ checked.write = deck.write ∧ checked.errors = [] ∧
    deck.errors = raw.cards.filterMap Card.rejection? ∧
    deck.warnings = raw.warnings ++ raw.cards.flatMap Card.remarks ∧
    (∀ w ∈ deck.warnings, w.code ≠ .downgradedError) ∧
    (checked.warnings = raw.warnings ++ raw.cards.flatMap fun card ↦ card.remarks ++
      (card.rejection?.map fun r ↦
        (⟨.downgradedError, r.message, some r.path, some r.line⟩ : Warning)).toList)
  /-- Failing fast gives the decks without errors. -/
  fast_iff (deck : Deck) : f = .ok deck ↔ d = .ok deck ∧ deck.errors = []
  /-- Otherwise it stops where reading does, or at the first card that is rejected. -/
  fast_error_iff (e : DeckError) : f = .error e ↔
    (∃ e', read = .error e' ∧ e = .reading e') ∨
    ∃ raw before card after r, read = .ok raw ∧ raw.cards = before ++ card :: after ∧
      (∀ b ∈ before, b.rejection? = none) ∧ card.rejection? = some r ∧ e = .rejected r

/-- The work on a deck stops at the first card that stops it. -/
theorem Deck.ofText_eq_error_iff (o : ProcessOptions) (files : Files.Source) (path text : String)
    (e : DeckError) : ofText o files path text = .error e ↔
    (∃ e', RawDeck.ofText o.reading files path text = .error e' ∧ e = .reading e') ∨
    ∃ raw before card after r, RawDeck.ofText o.reading files path text = .ok raw ∧
      raw.cards = before ++ card :: after ∧
      (∀ b ∈ before, b.stop? o = none) ∧ card.stop? o = some r ∧ e = .rejected r := by
  rw [ofText_eq]
  cases RawDeck.ofText o.reading files path text with
  | error e' => simp [eq_comm]
  | ok raw =>
    have hfirst : (∃ raw' before card after r, Except.ok (ε := ReadError) raw = .ok raw' ∧
        raw'.cards = before ++ card :: after ∧
        (∀ b ∈ before, b.stop? o = none) ∧ card.stop? o = some r ∧
          e = .rejected r) ↔ ∃ r, raw.cards.findSome? (·.stop? o) = some r ∧ e = .rejected r := by
      constructor
      · rintro ⟨_, before, card, after, r, heq, hcards, hbefore, hr, he⟩
        obtain rfl := Except.ok.inj heq
        exact ⟨r, List.findSome?_eq_some_iff.mpr ⟨before, card, after, hcards, hr, hbefore⟩, he⟩
      · rintro ⟨r, hr, he⟩
        obtain ⟨before, card, after, hcards, hr, hbefore⟩ := List.findSome?_eq_some_iff.mp hr
        exact ⟨raw, before, card, after, r, rfl, hcards, hbefore, hr, he⟩
    rw [hfirst]
    simp only [reduceCtorEq, false_and, exists_false, false_or]
    cases raw.cards.findSome? (·.stop? o) <;> simp [eq_comm]

/-- A deck that is read comes about if no card stops the work. -/
theorem Deck.ofText_eq_ok_iff (o : ProcessOptions) (files : Files.Source) (path text : String)
    (deck : Deck) : ofText o files path text = .ok deck ↔
    ∃ raw, RawDeck.ofText o.reading files path text = .ok raw ∧
      (∀ c ∈ raw.cards, c.stop? o = none) ∧
      deck = ofVerdicts o raw (raw.cards.map (·.verdict o.check)) := by
  rw [ofText_eq]
  cases RawDeck.ofText o.reading files path text with
  | error e' => simp
  | ok raw =>
    simp only [Except.ok.injEq, exists_eq_left', ← List.findSome?_eq_none_iff]
    cases raw.cards.findSome? (·.stop? o) <;> simp [eq_comm]

/-- The deck that is read, whatever is made of its rejected cards. -/
theorem Deck.ofVerdicts_verdict (o : ProcessOptions) (raw : RawDeck) :
    ofVerdicts o raw (raw.cards.map (·.verdict o.check)) =
      { message := raw.message
        title := raw.title.getD ""
        records := raw.cards.map fun c ↦ .of c (c.verdict false).record
        warnings := raw.warnings ++
          raw.cards.flatMap fun c ↦ c.remarks ++ if o.check then c.downgrades else []
        errors := if o.check then [] else raw.cards.filterMap Card.rejection?
        terminated := raw.terminated
        version := o.version
        tolerance := o.tolerance } := by
  have hrecords : (raw.cards.map (·.verdict o.check)).map (fun v ↦ DeckRecord.of v.card v.record) =
      raw.cards.map fun c ↦ .of c (c.verdict false).record := by
    rw [List.map_map]
    refine List.map_congr_left fun c _ ↦ ?_
    rw [Function.comp_apply, Card.card_verdict, Card.record_verdict]
  have hwarnings : (raw.cards.map (·.verdict o.check)).flatMap (·.warnings) =
      raw.cards.flatMap fun c ↦ c.remarks ++ if o.check then c.downgrades else [] := by
    rw [List.flatMap_map]
    simp only [Card.warnings_verdict]
  have herrors : (raw.cards.map (·.verdict o.check)).filterMap (·.rejection) =
      raw.cards.filterMap Card.rejection? := by
    rw [List.filterMap_map]
    refine List.filterMap_congr fun c _ ↦ ?_
    rw [Function.comp_apply, Card.rejection_verdict]
  rw [ofVerdicts, hrecords, hwarnings, herrors]

/-- No warning of reading, and no remark about a card, is one in place of an error. -/
theorem Deck.code_ne_downgradedError {options : ReadOptions} {files : Files.Source}
    {path text : String} {raw : RawDeck} (h : RawDeck.ofText options files path text = .ok raw)
    {w : Warning} (hw : w ∈ raw.warnings ++ raw.cards.flatMap Card.remarks) :
    w.code ≠ .downgradedError := by
  rcases List.mem_append.mp hw with hw | hw
  · have hcode := Reading.code_mem_of_readText h w hw
    intro heq
    rw [heq] at hcode
    exact absurd hcode (by decide)
  · obtain ⟨c, -, hw⟩ := List.mem_flatMap.mp hw
    unfold Card.remarks at hw
    split at hw
    · obtain rfl := List.mem_singleton.mp hw
      change Code.keptVerbatim ≠ _
      decide
    · cases hw

/-- The policies differ in what they report, and in whether the work goes on. -/
theorem Deck.policiesAgree (o : ProcessOptions) (files : Files.Source) (path text : String) :
    PoliciesAgree (RawDeck.ofText o.reading files path text)
      (ofText { o with check := false, failFast := false } files path text)
      (ofText { o with check := true, failFast := false } files path text)
      (ofText { o with check := false, failFast := true } files path text) where
  fails_iff e := by
    rw [ofText_eq_error_iff, ofText_eq_error_iff]
    rfl
  error_iff e := by
    simp only [ofText_eq_error_iff, Card.stop?_eq_none_iff, Card.stop?_eq_some_iff,
      Bool.or_false, and_assoc]
    rfl
  checked deck h := by
    obtain ⟨raw, hraw, hstop, rfl⟩ := (ofText_eq_ok_iff ..).mp h
    refine ⟨_, raw, (ofText_eq_ok_iff ..).mpr ⟨raw, hraw, hstop, rfl⟩, hraw, ?_⟩
    have hwarnings :
      raw.warnings ++ raw.cards.flatMap (fun c ↦ c.remarks ++ if false = true then c.downgrades
        else []) = raw.warnings ++ raw.cards.flatMap Card.remarks := by
      simp
    rw [ofVerdicts_verdict, ofVerdicts_verdict]
    refine ⟨rfl, rfl, rfl, rfl, rfl, rfl, rfl, hwarnings, fun w hw ↦ ?_, rfl⟩
    rw [hwarnings] at hw
    exact code_ne_downgradedError hraw hw
  fast_iff deck := by
    have hfast (cards : List Card) :
        (∀ c ∈ cards, c.stop? { o with check := false, failFast := true } = none) ↔
        cards.filterMap Card.rejection? = [] := by
      simp only [List.filterMap_eq_nil_iff, Card.stop?_eq_none_iff, Bool.or_true,
        Bool.true_eq_false, imp_false, ← Option.eq_none_iff_forall_ne_some]
    simp only [ofText_eq_ok_iff, hfast]
    constructor
    · rintro ⟨raw, hraw, hnone, rfl⟩
      refine ⟨⟨raw, hraw, fun c hc ↦ ?_, rfl⟩, by rwa [ofVerdicts_verdict]⟩
      rw [Card.stop?, List.filterMap_eq_nil_iff.mp hnone c hc, Option.filter_none]
    · rintro ⟨⟨raw, hraw, -, rfl⟩, herrors⟩
      rw [ofVerdicts_verdict] at herrors
      exact ⟨raw, hraw, herrors, rfl⟩
  fast_error_iff e := by
    simp only [ofText_eq_error_iff, Card.stop?_eq_none_iff, Card.stop?_eq_some_iff, Bool.or_true,
      and_true, Bool.true_eq_false, imp_false, ← Option.eq_none_iff_forall_ne_some]
    rfl

end TransportDeck
