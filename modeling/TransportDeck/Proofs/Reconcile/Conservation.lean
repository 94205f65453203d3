import Mathlib.Tactic
import TransportDeck.Node.Reconcile

/-!
# What reconciling conserves

A list is reconciled by cutting its edited entries into segments.  No step of the cutting adds,
drops or moves an entry: runs that are placed split the free segments, and runs that find no place
change at most the layout behind an entry.  The values of the new list are therefore those of the
entries, up to the one segment that is dropped at the end.
-/

namespace TransportDeck

namespace ListEntry

/-- The value of an entry; a place left open has none. -/
def value (e : ListEntry) : Option Value := e.field.signed

/-- The values of entries are those of their fields. -/
theorem map_signed_field (es : List ListEntry) :
    (es.map (·.field)).map Field.signed = es.map value := List.map_map

end ListEntry

/-! ## Values and layout -/

namespace Field

/-- A field has no value if and only if it is a place left open. -/
theorem signed_eq_none_iff {f : Field} : f.signed = none ↔ f.isJump = true := by
  unfold signed isJump
  split_ifs <;> simp

/-- A number is no place left open. -/
theorem isJump_eq_false_of_toReal? {f : Field} (h : f.toReal?.isSome = true) :
    f.isJump = false := by
  rw [Bool.eq_false_iff, ne_eq, ← signed_eq_none_iff]
  intro hn
  simp [toReal?, hn] at h

@[simp] theorem signed_setLayout (f : Field) (l : Option Layout) :
    (f.setLayout l).signed = f.signed := rfl

end Field

namespace Shorthand

/-- The values that a run stands for. -/
def values (s : Shorthand) : List (Option Value) := s.members.map Field.signed

/-- What is not seen by a function may change in the last of the fields. -/
theorem map_mapLast {α : Type} {h : Field → α} {g : Field → Field} (hg : ∀ f, h (g f) = h f)
    (fs : List Field) : (mapLast g fs).map h = fs.map h := by
  fun_induction mapLast g fs with
  | case1 => rfl
  | case2 f => simp [hg]
  | case3 f fs _ ih => simp [ih]

/-- The layout behind a run is no matter of its values. -/
@[simp] theorem values_setTrailing (s : Shorthand) (l : Option Layout) :
    (s.setTrailing l).values = s.values := by
  unfold setTrailing values
  split_ifs
  · exact map_mapLast (fun f ↦ f.signed_setLayout l) _
  · rfl

end Shorthand

namespace Reconcile

/-! ## Placing a run -/

/-- A segment of entries has these entries, whether they are none or some. -/
@[simp] theorem entries_freeUnlessEmpty (es : List ListEntry) :
    (Segment.freeUnlessEmpty es).flatMap Segment.entries = es := by
  unfold Segment.freeUnlessEmpty
  split_ifs with h
  · rw [List.isEmpty_iff.mp h]
    rfl
  · simp [Segment.entries]

variable {t : Tolerance} {s : Shorthand}

/-- Growing divides the entries into those that are taken and those that are left. -/
theorem grow_append (forward : Bool) (edge : Field) (size : Nat) (es : List ListEntry) :
    (grow t s forward edge size es).1 ++ (grow t s forward edge size es).2 = es := by
  induction es generalizing edge size with
  | nil => rfl
  | cons e es ih =>
    rw [grow]
    split_ifs with h
    · exact congrArg (e :: ·) (ih e.field (size + 1))
    · rfl

/-- What a run that takes root consists of. -/
structure Rooting (t : Tolerance) (s : Shorthand) (anchor : Option Field)
    (before : List ListEntry) (root : ListEntry) (behind : List ListEntry) where
  chained : Bool
  back : List ListEntry
  left : List ListEntry
  forth : List ListEntry
  right : List ListEntry
  canRoot : canRootAt s root.field = true
  chained_imp : chained = true → s.chained = true ∧ before = [] ∧
    ∃ a, anchor = some a ∧ s.continuesFrom t a root.field = true
  grow_back : (if chained then ([], before) else grow t s false root.field 1 before) = (back, left)
  grow_forth : grow t s true root.field (back.length + 1) behind = (forth, right)
  long_enough : s.minimumMembers chained ≤ (back.reverse ++ root :: forth).length

/-- The segments that a run leaves. -/
def Rooting.segments {anchor : Option Field} {before behind : List ListEntry} {root : ListEntry}
    (r : Rooting t s anchor before root behind) : List Segment :=
  Segment.freeUnlessEmpty r.left.reverse ++
    .claimed s r.chained (r.back.reverse ++ root :: r.forth) :: Segment.freeUnlessEmpty r.right

/-- A run that takes root does so in its own way, with what is taken and left on both sides. -/
theorem exists_rooting {anchor : Option Field} {before behind : List ListEntry}
    {root : ListEntry} {segments : List Segment}
    (h : rootAt? t s anchor before root behind = some segments) :
    ∃ r : Rooting t s anchor before root behind, segments = r.segments := by
  unfold rootAt? at h
  split_ifs at h with hroot
  extract_lets chained at h
  split at h
  next back left hback =>
  split at h
  next forth right hforth =>
  extract_lets run at h
  split_ifs at h with hlong
  refine ⟨⟨chained, back, left, forth, right, by simpa using hroot, ?_, hback, hforth,
    Nat.le_of_not_lt hlong⟩, (Option.some.inj h).symm⟩
  intro hc
  cases anchor with
  | none => simp [chained] at hc
  | some a =>
    simp only [chained, Bool.and_eq_true, List.isEmpty_iff] at hc
    exact ⟨hc.1.1, hc.1.2, a, rfl, hc.2⟩

/-- What is taken backwards and what is left there are the entries in front. -/
theorem Rooting.back_append {anchor : Option Field} {before behind : List ListEntry}
    {root : ListEntry} (r : Rooting t s anchor before root behind) : r.back ++ r.left = before := by
  have h := r.grow_back
  split_ifs at h
  · obtain ⟨hb, hl⟩ := Prod.mk.inj h
    rw [← hb, ← hl, List.nil_append]
  · have hg := grow_append (t := t) (s := s) false root.field 1 before
    rwa [h] at hg

/-- What is taken forwards and what is left there are the entries behind. -/
theorem Rooting.forth_append {anchor : Option Field} {before behind : List ListEntry}
    {root : ListEntry} (r : Rooting t s anchor before root behind) :
    r.forth ++ r.right = behind := by
  have hg := grow_append (t := t) (s := s) true root.field (r.back.length + 1) behind
  rwa [r.grow_forth] at hg

/-- Taking root keeps the entries, in their order. -/
theorem entries_rootAt? {anchor : Option Field} {before behind : List ListEntry}
    {root : ListEntry} {segments : List Segment}
    (h : rootAt? t s anchor before root behind = some segments) :
    segments.flatMap Segment.entries = before.reverse ++ root :: behind := by
  obtain ⟨r, rfl⟩ := exists_rooting h
  have hback := congrArg List.reverse r.back_append
  have hforth := r.forth_append
  rw [List.reverse_append] at hback
  simp [Rooting.segments, Segment.entries, ← hback, hforth]

/-- Looking for a root keeps the entries, in their order. -/
theorem entries_rootIn? {anchor : Option Field} {before es : List ListEntry}
    {segments : List Segment} (h : rootIn? t s anchor before es = some segments) :
    segments.flatMap Segment.entries = before.reverse ++ es := by
  induction es generalizing before with
  | nil => cases h
  | cons e es ih =>
    have later (h : rootIn? t s anchor (e :: before) es = some segments) :
        segments.flatMap Segment.entries = before.reverse ++ e :: es := by
      simpa using ih h
    rw [rootIn?] at h
    split_ifs at h
    · split at h
      · next hroot => exact Option.some.inj h ▸ entries_rootAt? hroot
      · exact later h
    · exact later h

/-- Placing a run keeps the entries, in their order. -/
theorem entries_place? {anchor : Option Field} {segments placed : List Segment}
    (h : place? t s anchor segments = some placed) :
    placed.flatMap Segment.entries = segments.flatMap Segment.entries := by
  induction segments generalizing anchor placed with
  | nil => cases h
  | cons segment rest ih =>
    cases segment with
    | claimed r c es =>
      obtain ⟨rest', hrest, rfl⟩ := Option.map_eq_some_iff.mp h
      simp [ih hrest]
    | free es =>
      rw [place?] at h
      split at h
      · next hroot =>
        obtain rfl := Option.some.inj h
        simp [entries_rootIn? hroot, Segment.entries]
      · obtain ⟨rest', hrest, rfl⟩ := Option.map_eq_some_iff.mp h
        simp [ih hrest]

/-! ## Runs that are gone -/

/-- The values of all entries in the segments. -/
def valuesOf (segments : List Segment) : List (Option Value) :=
  (segments.flatMap Segment.entries).map ListEntry.value

/-- Which run has claimed each entry. -/
def claimsOf (segments : List Segment) : List (Option Shorthand) :=
  segments.flatMap fun
    | .free es => es.map fun _ ↦ none
    | .claimed s _ es => es.map fun _ ↦ some s

/-- Giving a layout to an entry does not change the values. -/
theorem values_setLastOf {id : Nat} {l : Layout} {es es' : List ListEntry}
    (h : setLastOf id l es = some es') :
    es'.map ListEntry.value = es.map ListEntry.value := by
  induction es generalizing es' with
  | nil => cases h
  | cons e es ih =>
    rw [setLastOf] at h
    split at h
    · next hlater =>
      obtain rfl := Option.some.inj h
      simp [ih hlater]
    · split_ifs at h
      obtain rfl := Option.some.inj h
      simp [ListEntry.value]

/-- The values of segments are those of the first and of the others. -/
theorem valuesOf_cons (g : Segment) (rest : List Segment) :
    valuesOf (g :: rest) = g.entries.map ListEntry.value ++ valuesOf rest := by
  simp [valuesOf]

theorem valuesOf_append (a b : List Segment) :
    valuesOf (a ++ b) = valuesOf a ++ valuesOf b := by
  simp [valuesOf]

/-- Giving a layout to the last entry of a run does not change the values. -/
theorem valuesOf_setLastIn {id : Nat} {l : Layout} {segments changed : List Segment}
    (h : setLastIn id l segments = some changed) : valuesOf changed = valuesOf segments := by
  induction segments generalizing changed with
  | nil => cases h
  | cons g rest ih =>
    rw [valuesOf_cons]
    cases hrest : setLastIn id l rest with
    | some rest' =>
      simp only [setLastIn, hrest, Option.some.injEq] at h
      rw [← h, valuesOf_cons, ih hrest]
    | none =>
      cases g with
      | claimed s c es => simp [setLastIn, hrest] at h
      | free es =>
        simp only [setLastIn, hrest] at h
        obtain ⟨es', hes, rfl⟩ := Option.map_eq_some_iff.mp h
        rw [valuesOf_cons]
        exact congrArg (· ++ valuesOf rest) (values_setLastOf hes)

/-- Whether a run is placed or dissolved, the values stay what they are. -/
theorem valuesOf_placeOrDissolve (segments : List Segment) (s : Shorthand) :
    valuesOf (placeOrDissolve t segments s) = valuesOf segments := by
  unfold placeOrDissolve
  split
  · next h => rw [valuesOf, valuesOf, entries_place? h]
  · unfold handOverLayout
    split
    · cases h : setLastIn s.id _ segments with
      | none => rfl
      | some changed => exact valuesOf_setLastIn h
    · rfl

/-- All the runs of a list, one after the other, keep the values. -/
theorem valuesOf_foldl (runs : List Shorthand) (segments : List Segment) :
    valuesOf (runs.foldl (placeOrDissolve t) segments) = valuesOf segments := by
  induction runs generalizing segments with
  | nil => rfl
  | cons s runs ih => rw [List.foldl_cons, ih, valuesOf_placeOrDissolve]

/-! ## Open places -/

/-- The jumps over open places hold the entries that were there. -/
theorem entries_claimJumps (id : Nat) (es : List ListEntry) :
    (claimJumps id es).1.flatMap Segment.entries = es := by
  fun_induction claimJumps id es with
  | case1 id => rfl
  | case2 id e es hjump rest next hrest ih =>
    rw [hrest] at ih
    simp [Segment.entries, ih, List.takeWhile_append_dropWhile]
  | case3 id e es hjump rest next hrest ih =>
    rw [hrest] at ih
    simp [Segment.entries, ih, List.takeWhile_append_dropWhile]

/-- With all open places claimed, the entries are still the same. -/
theorem entries_claimAllJumps (id : Nat) (segments : List Segment) :
    (claimAllJumps id segments).1.flatMap Segment.entries =
      segments.flatMap Segment.entries := by
  induction segments generalizing id with
  | nil => rfl
  | cons g rest ih =>
    cases g with
    | claimed s c es => simp [claimAllJumps, ih]
    | free es => simp [claimAllJumps, ih, entries_claimJumps, Segment.entries]

/-! ## Items -/

/-- The items of segments have the fields of their entries. -/
theorem fields_itemsOf (before : Option Field) (segments : List Segment) :
    (itemsOf before segments).flatMap Item.fields =
      (segments.flatMap Segment.entries).map (·.field) := by
  induction segments generalizing before with
  | nil => rfl
  | cons g rest ih =>
    cases g with
    | claimed s c es => simp [itemsOf, ih, Segment.entries, Item.fields, Shorthand.rebuilt]
    | free es => simp [itemsOf, ih, Segment.entries, Item.fields, List.flatMap_map,
        ← List.map_eq_flatMap]

/-- Clearing the blanks behind an item does not change its values. -/
theorem values_clearBlankTrailing (i : Item) :
    (clearBlankTrailing i).fields.map Field.signed = i.fields.map Field.signed := by
  unfold clearBlankTrailing
  split
  · split_ifs
    · cases i with
      | field f => rfl
      | run s => exact s.values_setTrailing _
    · rfl
  · rfl

end Reconcile

/-- A change of the last item that keeps its values keeps those of the list. -/
theorem FieldList.values_mapLastItem {g : Item → Item}
    (hg : ∀ i, (g i).fields.map Field.signed = i.fields.map Field.signed) (l : FieldList) :
    (l.mapLastItem g).values = l.values := by
  unfold mapLastItem
  split
  · next i hi =>
    obtain ⟨ys, hys⟩ := List.getLast?_eq_some_iff.mp hi
    simp [values, fields, hys, hg]
  · rfl

end TransportDeck
