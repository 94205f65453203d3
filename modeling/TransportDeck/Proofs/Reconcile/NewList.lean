import Mathlib.Data.List.TakeWhile
import TransportDeck.Proofs.Reconcile.LegalRuns

/-!
# The reconciled list

Runs are placed one after the other.  Each placement keeps the segments sound: none is empty, every
claimed one holds a legal run, and the first is chained to nothing.  With the open places claimed as
well the segments become the items of the new list.
-/

namespace TransportDeck

open Shorthand

namespace Reconcile

variable {t : Tolerance}

/-! ## Sound segments -/

/-- The segment holds entries, and values that the run which has claimed it stands for. -/
structure Sound (t : Tolerance) (g : Segment) : Prop where
  nonempty : g.entries ≠ []
  fits : ∀ s c es, g = .claimed s c es → s.Fits t c (es.map ListEntry.value)

theorem Sound.free {es : List ListEntry} (h : es ≠ []) : Sound t (.free es) where
  nonempty := h
  fits := by
    intro s c es' heq
    cases heq

theorem Sound.claimed {s : Shorthand} {c : Bool} {es : List ListEntry} (h : es ≠ [])
    (hfits : s.Fits t c (es.map ListEntry.value)) : Sound t (.claimed s c es) where
  nonempty := h
  fits := by
    intro s' c' es' heq
    obtain ⟨rfl, rfl, rfl⟩ := Segment.claimed.inj heq
    exact hfits

/-- Entries that are free make up a sound segment, or none. -/
theorem sound_freeUnlessEmpty (es : List ListEntry) :
    ∀ g ∈ Segment.freeUnlessEmpty es, Sound t g := by
  unfold Segment.freeUnlessEmpty
  split_ifs with h
  · intro g hg
    cases hg
  · intro g hg
    rw [List.mem_singleton.mp hg]
    exact .free (by simpa using h)

/-- Whether the first segment goes on from a value before it. -/
def startsChained : List Segment → Bool
  | .claimed _ c _ :: _ => c
  | _ => false

/-- Free entries in front of a list of segments chain nothing. -/
theorem startsChained_freeUnlessEmpty_append (es : List ListEntry) (segments : List Segment) :
    startsChained (Segment.freeUnlessEmpty es ++ segments) =
      (es.isEmpty && startsChained segments) := by
  unfold Segment.freeUnlessEmpty
  split_ifs with h <;> simp [h, startsChained]

/-! ## Placing runs -/

variable {s : Shorthand}

/-- A run takes root between segments that are sound. -/
theorem Rooting.sound {anchor : Option Field} {before behind : List ListEntry} {root : ListEntry}
    (r : Rooting t s anchor before root behind) : ∀ g ∈ r.segments, Sound t g := by
  simp only [Rooting.segments, List.mem_append, List.mem_cons]
  rintro g (hg | rfl | hg)
  · exact sound_freeUnlessEmpty _ g hg
  · exact .claimed (by simp) r.fits
  · exact sound_freeUnlessEmpty _ g hg

/-- A run that takes root without an anchor starts no chain. -/
theorem Rooting.startsChained {before behind : List ListEntry} {root : ListEntry}
    (r : Rooting t s none before root behind) : startsChained r.segments = false := by
  have hc : r.chained = false := by
    by_contra hc
    obtain ⟨-, -, a, ha, -⟩ := r.chained_imp (by simpa using hc)
    cases ha
  rw [Rooting.segments, startsChained_freeUnlessEmpty_append, Reconcile.startsChained, hc,
    Bool.and_false]

/-- The run takes root at one of its own entries. -/
theorem exists_rooting_of_rootIn? {anchor : Option Field} {before es : List ListEntry}
    {segments : List Segment} (h : rootIn? t s anchor before es = some segments) :
    ∃ before' root behind, ∃ r : Rooting t s anchor before' root behind, segments = r.segments ∧
      root.runId? = some s.id ∧ before'.reverse ++ root :: behind = before.reverse ++ es := by
  induction es generalizing before with
  | nil => cases h
  | cons e es ih =>
    have later (h : rootIn? t s anchor (e :: before) es = some segments) :
        ∃ before' root behind, ∃ r : Rooting t s anchor before' root behind, segments = r.segments ∧
          root.runId? = some s.id ∧ before'.reverse ++ root :: behind =
          before.reverse ++ e :: es := by
      simpa using ih h
    rw [rootIn?] at h
    split_ifs at h with hid
    · split at h
      · next hroot =>
        obtain ⟨r, hr⟩ := exists_rooting (Option.some.inj h ▸ hroot)
        exact ⟨before, e, es, r, hr, eq_of_beq hid, rfl⟩
      · exact later h
    · exact later h

/-- Placing a run among sound segments leaves them sound. -/
theorem sound_place? {anchor : Option Field} {segments placed : List Segment}
    (hsound : ∀ g ∈ segments, Sound t g) (h : place? t s anchor segments = some placed) :
    ∀ g ∈ placed, Sound t g := by
  induction segments generalizing anchor placed with
  | nil => cases h
  | cons segment rest ih =>
    obtain ⟨hsegment, hrest⟩ := List.forall_mem_cons.mp hsound
    cases segment with
    | claimed r c es =>
      obtain ⟨rest', hplaced, rfl⟩ := Option.map_eq_some_iff.mp h
      exact List.forall_mem_cons.mpr ⟨hsegment, ih hrest hplaced⟩
    | free es =>
      rw [place?] at h
      split at h
      · next hroot =>
        obtain ⟨_, _, _, r, rfl, -⟩ := exists_rooting_of_rootIn? hroot
        obtain rfl := Option.some.inj h
        exact List.forall_mem_append.mpr ⟨r.sound, hrest⟩
      · obtain ⟨rest', hplaced, rfl⟩ := Option.map_eq_some_iff.mp h
        exact List.forall_mem_cons.mpr ⟨hsegment, ih hrest hplaced⟩

/-- Placing a run does not chain the first segment to anything. -/
theorem startsChained_place? {segments placed : List Segment}
    (h : place? t s none segments = some placed) (hs : startsChained segments = false) :
    startsChained placed = false := by
  cases segments with
  | nil => cases h
  | cons segment rest =>
    cases segment with
    | claimed r c es =>
      obtain ⟨rest', -, rfl⟩ := Option.map_eq_some_iff.mp h
      exact hs
    | free es =>
      rw [place?] at h
      split at h
      · next hroot =>
        obtain ⟨_, _, _, r, rfl, -⟩ := exists_rooting_of_rootIn? hroot
        obtain rfl := Option.some.inj h
        have hr := r.startsChained
        unfold Rooting.segments Segment.freeUnlessEmpty at hr ⊢
        split_ifs at hr ⊢ <;> exact hr
      · obtain ⟨rest', -, rfl⟩ := Option.map_eq_some_iff.mp h
        rfl

/-- Giving a layout to the last entry leaves the entries there. -/
theorem setLastOf_ne_nil {id : Nat} {l : Layout} {es es' : List ListEntry}
    (h : setLastOf id l es = some es') : es' ≠ [] := by
  have hvalues := congrArg List.length (values_setLastOf h)
  cases es with
  | nil => cases h
  | cons e es =>
    rintro rfl
    simp at hvalues

/-- Giving a layout to the last entry of a run leaves the segments sound. -/
theorem sound_setLastIn {id : Nat} {l : Layout} {segments changed : List Segment}
    (h : setLastIn id l segments = some changed) (hsound : ∀ g ∈ segments, Sound t g) :
    (∀ g ∈ changed, Sound t g) ∧ startsChained changed = startsChained segments := by
  induction segments generalizing changed with
  | nil => cases h
  | cons g rest ih =>
    obtain ⟨hg, hrest⟩ := List.forall_mem_cons.mp hsound
    cases hlater : setLastIn id l rest with
    | some rest' =>
      simp only [setLastIn, hlater, Option.some.injEq] at h
      subst h
      exact ⟨List.forall_mem_cons.mpr ⟨hg, (ih hlater hrest).1⟩, by cases g <;> rfl⟩
    | none =>
      cases g with
      | claimed s c es => simp [setLastIn, hlater] at h
      | free es =>
        simp only [setLastIn, hlater] at h
        obtain ⟨es', hes, rfl⟩ := Option.map_eq_some_iff.mp h
        exact ⟨List.forall_mem_cons.mpr ⟨.free (setLastOf_ne_nil hes), hrest⟩, rfl⟩

/-- Whether a run finds a place or is dissolved, the segments stay sound. -/
theorem sound_placeOrDissolve {segments : List Segment} (hsound : ∀ g ∈ segments, Sound t g)
    (hs : startsChained segments = false) :
    (∀ g ∈ placeOrDissolve t segments s, Sound t g) ∧
      startsChained (placeOrDissolve t segments s) = false := by
  unfold placeOrDissolve
  split
  · next h => exact ⟨sound_place? hsound h, startsChained_place? h hs⟩
  · unfold handOverLayout
    split
    · next l _ =>
      cases h : setLastIn s.id l segments with
      | none => exact ⟨hsound, hs⟩
      | some changed =>
        obtain ⟨hchanged, heq⟩ := sound_setLastIn h hsound
        exact ⟨hchanged, heq.trans hs⟩
    · exact ⟨hsound, hs⟩

/-- All runs of a list, one after the other, leave the segments sound. -/
theorem sound_foldl (runs : List Shorthand) {segments : List Segment}
    (hsound : ∀ g ∈ segments, Sound t g) (hs : startsChained segments = false) :
    (∀ g ∈ runs.foldl (placeOrDissolve t) segments, Sound t g) ∧
      startsChained (runs.foldl (placeOrDissolve t) segments) = false := by
  induction runs generalizing segments with
  | nil => exact ⟨hsound, hs⟩
  | cons s runs ih =>
    obtain ⟨h₁, h₂⟩ := sound_placeOrDissolve (s := s) hsound hs
    exact ih h₁ h₂

/-! ## Open places -/

/-- What open places become: runs of them are claimed, and free segments have none. -/
def Settled (t : Tolerance) (g : Segment) : Prop :=
  Sound t g ∧ ∀ es, g = .free es → ∀ e ∈ es, e.value ≠ none

/-- A new jump over open places is settled. -/
theorem settled_newJump {id : Nat} {es : List ListEntry} (hne : es ≠ [])
    (h : ∀ e ∈ es, e.field.isJump = true) :
    Settled t (.claimed (.newJump id []) false es) := by
  refine ⟨.claimed hne ?_, by intro _ heq; cases heq⟩
  refine ⟨?_, ?_, by simp, by simp [newJump], by simp [newJump],
    by simp [newJump, ShorthandKind.isInterpolation]⟩
  · simpa [minimumMembers, newJump, Nat.one_le_iff_ne_zero] using hne
  · simp only [List.mem_map]
    rintro _ ⟨e, he, rfl⟩
    exact iff_of_true (Field.signed_eq_none_iff.mpr (h e he)) rfl

/-- A free segment without open places is settled. -/
theorem settled_free {es : List ListEntry} (hne : es ≠ [])
    (h : ∀ e ∈ es, e.field.isJump = false) : Settled t (.free es) := by
  refine ⟨.free hne, ?_⟩
  intro es' heq e he hnone
  obtain rfl := Segment.free.inj heq
  have := h e he
  simp [Field.signed_eq_none_iff.mp hnone] at this

/-- The open places of a free segment are claimed by new jumps, and nothing of it stays open. -/
theorem settled_claimJumps (id : Nat) (es : List ListEntry) :
    (∀ g ∈ (claimJumps id es).1, Settled t g) ∧
      startsChained (claimJumps id es).1 = false := by
  fun_induction claimJumps id es with
  | case1 id => exact ⟨by simp, rfl⟩
  | case2 id e es hjump rest next hrest ih =>
    rw [hrest] at ih
    refine ⟨List.forall_mem_cons.mpr ⟨settled_newJump (by simp) ?_, ih.1⟩, rfl⟩
    refine List.forall_mem_cons.mpr ⟨hjump, fun e he ↦ ?_⟩
    simpa using List.mem_takeWhile_imp he
  | case3 id e es hjump rest next hrest ih =>
    rw [hrest] at ih
    refine ⟨List.forall_mem_cons.mpr ⟨settled_free (by simp) ?_, ih.1⟩, rfl⟩
    refine List.forall_mem_cons.mpr ⟨by simpa using hjump, fun e he ↦ ?_⟩
    simpa using List.mem_takeWhile_imp he

/-- With all open places claimed, every segment is settled. -/
theorem settled_claimAllJumps (id : Nat) {segments : List Segment}
    (hsound : ∀ g ∈ segments, Sound t g) (hs : startsChained segments = false) :
    (∀ g ∈ (claimAllJumps id segments).1, Settled t g) ∧
      startsChained (claimAllJumps id segments).1 = false := by
  have hall : ∀ g ∈ (claimAllJumps id segments).1, Settled t g := by
    clear hs
    induction segments generalizing id with
    | nil => simp [claimAllJumps]
    | cons g rest ih =>
      obtain ⟨hg, hrest⟩ := List.forall_mem_cons.mp hsound
      cases g with
      | claimed s c es =>
        exact List.forall_mem_cons.mpr ⟨⟨hg, by intro _ heq; cases heq⟩, ih id hrest⟩
      | free es => exact List.forall_mem_append.mpr ⟨(settled_claimJumps id es).1, ih _ hrest⟩
  refine ⟨hall, ?_⟩
  cases segments with
  | nil => rfl
  | cons g rest =>
    cases g with
    | claimed s c es => exact hs
    | free es =>
      have hne : (claimJumps id es).1 ≠ [] := by
        intro hnil
        have hes := entries_claimJumps id es
        rw [hnil] at hes
        exact (hsound (.free es) List.mem_cons_self).nonempty hes.symm
      have hes := (settled_claimJumps (t := t) id es).2
      simp only [claimAllJumps]
      cases hc : (claimJumps id es).1 with
      | nil => exact absurd hc hne
      | cons g' rest' =>
        rw [hc] at hes
        cases g' <;> exact hes

/-! ## Items -/

/-- A run that fits its values is legal once it is rebuilt from them. -/
theorem Fits.isLegal {s : Shorthand} {chained : Bool} {fs : List Field} {before : Option Field}
    (h : s.Fits t chained (fs.map Field.signed)) (hbefore : chained = true → before.isSome = true) :
    (s.rebuilt fs (if chained then before else none)).IsLegal t := by
  have hc : (s.rebuilt fs (if chained then before else none)).chained = chained := by
    cases chained with
    | false => rfl
    | true => simp [rebuilt, hbefore rfl, h.not_jump_of_chained rfl]
  unfold IsLegal
  rw [hc]
  exact ⟨h.enough, h.open_iff, h.not_jump_of_chained, h.copies, h.multiply, h.interpolation⟩

end Reconcile

namespace Item

/-- A plain field has a value, and a run is legal. -/
def IsLegal (t : Tolerance) : Item → Prop
  | field f => f.isJump = false
  | run s => s.IsLegal t

/-- The layout behind an item is no matter of its legality. -/
theorem IsLegal.setTrailing {t : Tolerance} {i : Item} (h : i.IsLegal t) (l : Option Layout) :
    (i.setTrailing l).IsLegal t := by
  cases i with
  | field f => exact h
  | run s =>
    change (s.setTrailing l).Fits t (s.setTrailing l).chained (s.setTrailing l).values
    rw [s.values_setTrailing]
    unfold Shorthand.setTrailing
    split_ifs
    · exact ⟨h.enough, h.open_iff, h.not_jump_of_chained, h.copies, h.multiply, h.interpolation⟩
    · exact ⟨h.enough, h.open_iff, h.not_jump_of_chained, h.copies, h.multiply, h.interpolation⟩

end Item

namespace Reconcile

variable {t : Tolerance}

/-- Settled segments become legal items. -/
theorem isLegal_itemsOf {before : Option Field} {segments : List Segment}
    (hsettled : ∀ g ∈ segments, Settled t g)
    (hbefore : startsChained segments = true → before.isSome = true) :
    ∀ i ∈ itemsOf before segments, i.IsLegal t := by
  induction segments generalizing before with
  | nil => simp [itemsOf]
  | cons g rest ih =>
    obtain ⟨hg, hrest⟩ := List.forall_mem_cons.mp hsettled
    have hlast : ((g.entries.getLast?).map (·.field)).isSome = true := by
      rw [Option.isSome_map, List.getLast?_isSome]
      exact hg.1.nonempty
    cases g with
    | free es =>
      refine List.forall_mem_append.mpr ⟨?_, ih hrest fun _ ↦ hlast⟩
      simp only [List.mem_map]
      rintro _ ⟨e, he, rfl⟩
      exact Bool.eq_false_iff.mpr fun hj ↦
        hg.2 es rfl e he (Field.signed_eq_none_iff.mpr hj)
    | claimed s c es =>
      refine List.forall_mem_cons.mpr ⟨?_, ih hrest fun _ ↦ hlast⟩
      have hfits := hg.1.fits s c es rfl
      rw [← ListEntry.map_signed_field] at hfits
      exact Fits.isLegal hfits hbefore

/-- Clearing the blanks behind an item leaves it legal. -/
theorem isLegal_clearBlankTrailing {i : Item} (h : i.IsLegal t) :
    (clearBlankTrailing i).IsLegal t := by
  unfold clearBlankTrailing
  split
  · split_ifs
    · exact h.setTrailing _
    · exact h
  · exact h

end Reconcile

/-- A property of all items that is kept where the last one changes holds of them all afterwards. -/
theorem FieldList.forall_mem_mapLastItem {P : Item → Prop} {g : Item → Item}
    (hg : ∀ i, P i → P (g i)) {l : FieldList} (h : ∀ i ∈ l.items, P i) :
    ∀ i ∈ (l.mapLastItem g).items, P i := by
  unfold mapLastItem
  split
  · next last hlast =>
    refine List.forall_mem_append.mpr ⟨fun i hi ↦ h i (List.mem_of_mem_dropLast hi), ?_⟩
    intro i hi
    rw [List.mem_singleton.mp hi]
    exact hg last (h last (List.mem_of_getLast? hlast))
  · exact h

/-! ## The end of the list -/

namespace Reconcile

/-- What is dropped from the end of the segments are synthesized runs. -/
theorem dropImplied_append (segments : List Segment) : ∃ implied,
    segments = dropImplied segments ++ implied ∧
      ∀ g ∈ implied, ∃ s c es, g = .claimed s c es ∧ s.synthesized = true := by
  unfold dropImplied
  split
  · next s c es hlast =>
    split_ifs with hs
    · refine ⟨[.claimed s c es], ?_, fun g hg ↦ ⟨s, c, es, List.mem_singleton.mp hg, hs⟩⟩
      rw [List.dropLast_append_getLast? _ hlast]
    · exact ⟨[], by simp, by simp⟩
  · exact ⟨[], by simp, by simp⟩

/-- Fewer segments start no other chain. -/
theorem startsChained_of_append {kept rest : List Segment}
    (h : startsChained (kept ++ rest) = false) : startsChained kept = false := by
  cases kept with
  | nil => rfl
  | cons g kept => cases g <;> exact h

theorem claimsOf_append (a b : List Segment) : claimsOf (a ++ b) = claimsOf a ++ claimsOf b := by
  simp [claimsOf]

/-- There is one claim for each value. -/
theorem length_claimsOf (segments : List Segment) :
    (claimsOf segments).length = (valuesOf segments).length := by
  induction segments with
  | nil => rfl
  | cons g rest ih =>
    rw [valuesOf_cons, List.length_append, ← ih]
    cases g <;> simp [claimsOf, Segment.entries]

/-- A synthesized run of settled segments is a jump: it stands for open places only. -/
theorem Settled.eq_none_of_synthesized {s : Shorthand} {c : Bool} {es : List ListEntry}
    (h : Settled t (.claimed s c es)) (hs : s.synthesized = true) {v : Option Value}
    (hv : v ∈ es.map ListEntry.value) : v = none :=
  ((h.1.fits s c es rfl).open_iff v hv).mpr (s.jump_of_synthesized hs)

end Reconcile

namespace FieldList

open Reconcile

variable (t : Tolerance) (edited : List ListEntry) (l : FieldList)

/-- The segments that the edited entries of a list are cut into. -/
def cut : List Segment :=
  (claimAllJumps l.nextId
    ((l.items.filterMap Item.shorthand?).foldl (placeOrDissolve t) [.free edited])).1

/-- The run that claims each edited entry. -/
def claims : List (Option Shorthand) := claimsOf (l.cut t edited)

/-- The segments of the edited list hold its entries, in their order. -/
theorem valuesOf_cut : valuesOf (l.cut t edited) = edited.map ListEntry.value := by
  rw [cut, valuesOf, entries_claimAllJumps]
  exact (valuesOf_foldl _ _).trans (by simp [valuesOf, Segment.entries])

/-- The edited list is cut into settled segments, and the first is chained to nothing. -/
theorem settled_cut {edited : List ListEntry} (h : edited ≠ []) :
    (∀ g ∈ l.cut t edited, Settled t g) ∧ startsChained (l.cut t edited) = false := by
  have hfree : ∀ g ∈ [Segment.free edited], Sound t g := by
    intro g hg
    rw [List.mem_singleton.mp hg]
    exact .free h
  obtain ⟨hsound, hs⟩ := sound_foldl (l.items.filterMap Item.shorthand?) hfree rfl
  exact settled_claimAllJumps l.nextId hsound hs

/-- The values of the reconciled list are those of the segments that were not dropped. -/
theorem values_reconcile {edited : List ListEntry} (h : edited ≠ []) :
    (l.reconcile t edited).values = valuesOf (dropImplied (l.cut t edited)) := by
  unfold reconcile
  rw [if_neg (by simpa using h), values_mapLastItem values_clearBlankTrailing]
  simp only [values, fields, fields_itemsOf, List.map_map]
  rfl

/-- The reconciled list consists of legal items. -/
theorem isLegal_reconcile : ∀ i ∈ (l.reconcile t edited).items, i.IsLegal t := by
  by_cases h : edited = []
  · subst h
    simp [reconcile]
  · obtain ⟨hsettled, hs⟩ := l.settled_cut t h
    obtain ⟨implied, happend, -⟩ := dropImplied_append (l.cut t edited)
    unfold reconcile
    rw [if_neg (by simpa using h)]
    refine forall_mem_mapLastItem (fun i hi ↦ isLegal_clearBlankTrailing hi) ?_
    refine isLegal_itemsOf (fun g hg ↦ hsettled g ?_) fun hc ↦ ?_
    · rw [happend]
      exact List.mem_append_left _ hg
    · rw [happend] at hs
      exact absurd (hc.symm.trans (startsChained_of_append hs)) (by decide)

/-- A reconciled list holds the edited values in their order, up to open places at the end that
were left to a jump which no one wrote, and all its runs are legal. -/
theorem reconcile_conserves : ∃ n ≤ edited.length,
    (l.reconcile t edited).values = (edited.take n).map ListEntry.value ∧
    (∀ e ∈ edited.drop n, e.field.isJump = true) ∧
    (∀ c ∈ (l.claims t edited).drop n, ∃ s, c = some s ∧ s.synthesized = true) ∧
    ∀ i ∈ (l.reconcile t edited).items, i.IsLegal t := by
  by_cases h : edited = []
  · subst h
    have hlength := (length_claimsOf (l.cut t [])).trans
      (congrArg List.length (l.valuesOf_cut t []))
    have hclaims : l.claims t [] = [] := List.eq_nil_of_length_eq_zero hlength
    exact ⟨0, le_rfl, rfl, by simp, by simp [hclaims], l.isLegal_reconcile t []⟩
  obtain ⟨implied, happend, himplied⟩ := dropImplied_append (l.cut t edited)
  have hvalues := l.valuesOf_cut t edited
  rw [happend, valuesOf_append] at hvalues
  have hclaims : l.claims t edited =
      claimsOf (dropImplied (l.cut t edited)) ++ claimsOf implied := by
    rw [claims, ← claimsOf_append, ← happend]
  refine ⟨(valuesOf (dropImplied (l.cut t edited))).length, ?_, ?_, ?_, ?_, l.isLegal_reconcile t _⟩
  · have := congrArg List.length hvalues
    simp only [List.length_append, List.length_map] at this
    omega
  · rw [l.values_reconcile t h, List.map_take, ← hvalues, List.take_left]
  · intro e he
    have hmem : e.value ∈ valuesOf implied := by
      have := List.mem_map_of_mem (f := ListEntry.value) he
      rwa [List.map_drop, ← hvalues, List.drop_left] at this
    obtain ⟨e', he', heq⟩ := List.mem_map.mp hmem
    obtain ⟨g, hg, heg⟩ := List.mem_flatMap.mp he'
    obtain ⟨s, c, es, rfl, hs⟩ := himplied g hg
    have hg : Settled t (.claimed s c es) := by
      refine (l.settled_cut t h).1 _ ?_
      rw [happend]
      exact List.mem_append_right _ hg
    have hnone := hg.eq_none_of_synthesized hs (List.mem_map_of_mem heg)
    exact Field.signed_eq_none_iff.mp (heq.symm.trans hnone)
  · rw [hclaims, ← length_claimsOf, List.drop_left]
    intro c hc
    obtain ⟨g, hg, hcg⟩ := List.mem_flatMap.mp hc
    obtain ⟨s, _, es, rfl, hs⟩ := himplied g hg
    obtain ⟨e, -, rfl⟩ := List.mem_map.mp hcg
    exact ⟨s, rfl, hs⟩

/-! ### A jump that an edit made

Opening the place between two values makes a jump.  It is part of the list from then on, but it does
not keep the place once the value behind it is gone. -/

/-- Three values, the second of them left open. -/
def opened : FieldList := empty.setValues .standard [some (.real 1), none, some (.real 3)]

/-- The jump over the open place. -/
def openedJump : Shorthand := (Shorthand.newJump 0 []).rebuilt [.new none .real] none

set_option maxRecDepth 4000 in
/-- A number, a jump over an open place, and another number. -/
theorem opened_eq :
    opened = ⟨[.field (.real 1), .run openedJump, .field (.real 3)], none, 1, true⟩ := by
  simp [opened, openedJump, setValues, overwrite, empty, reconcile, entries, claimAllJumps,
    claimJumps, Field.isJump, ListEntry.new, Field.new, itemsOf, dropImplied, last?, Field.real,
    Value.coerce, fields, mapLastItem, clearBlankTrailing, Item.trailing?, Shorthand.rebuilt,
    Shorthand.newJump]

/-- The entries without the last value. -/
def openedEntries : List ListEntry := [.new (.real 1), ⟨.new none .real, some (0, 0)⟩]

/-- The jump of the list claims the open place at the end, so the cut leaves nothing to be claimed
anew. -/
theorem cut_opened : opened.cut .standard openedEntries =
    [.free [.new (.real 1)], .claimed openedJump false [⟨.new none .real, some (0, 0)⟩]] := by
  have hplaced : (opened.items.filterMap Item.shorthand?).foldl (placeOrDissolve .standard)
      [.free openedEntries] =
      [.free [.new (.real 1)], .claimed openedJump false [⟨.new none .real, some (0, 0)⟩]] := by
    rw [opened_eq]
    rfl
  rw [cut, hplaced]
  simp [claimAllJumps, claimJumps, ListEntry.new, Field.real, Field.new, Field.isJump]

theorem opened_drops_claimed : ¬ ∀ (t : Tolerance) (edited : List ListEntry) (l : FieldList),
    edited ≠ [] → ∃ n ≤ edited.length,
      (l.reconcile t edited).values = (edited.take n).map ListEntry.value ∧
      ∀ s, some s ∈ (l.claims t edited).drop n → Item.run s ∉ l.items := by
  intro h
  have hne : openedEntries ≠ [] := List.cons_ne_nil _ _
  obtain ⟨n, hn, hvalues, hclaims⟩ := h .standard openedEntries opened hne
  have hlength := congrArg List.length hvalues
  rw [values_reconcile _ _ hne, cut_opened, List.length_map, List.length_take,
    Nat.min_eq_left hn] at hlength
  obtain rfl : 1 = n := hlength
  refine hclaims openedJump ?_ ?_
  · rw [claims, cut_opened]
    exact List.mem_singleton_self _
  · rw [opened_eq]
    exact List.mem_cons_of_mem _ List.mem_cons_self

end FieldList

end TransportDeck
