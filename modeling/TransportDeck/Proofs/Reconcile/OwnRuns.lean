import TransportDeck.Proofs.Reconcile.NewList

/-!
# Lists that are built anew from their own values

A list that is built anew from its own entries has the same items if each run wins back its own
members, and no more.  The runs are placed in their order.  When one is placed, those before it have
their members, and it takes root at its first one, in front of the entries of all later items.
-/

namespace TransportDeck

namespace Shorthand

/-- The members, each with its place in the run. -/
def ownEntries (s : Shorthand) : List ListEntry := s.members.mapIdx fun i f ↦ ⟨f, some (s.id, i)⟩

/-- The entries of a run are its members. -/
@[simp] theorem map_field_ownEntries (s : Shorthand) : s.ownEntries.map (·.field) = s.members := by
  simp [ownEntries, List.mapIdx_eq_zipIdx_map, List.map_map, Function.comp_def]

/-- The entries of a run remember the run. -/
theorem runId?_of_mem_ownEntries {s : Shorthand} {e : ListEntry} (h : e ∈ s.ownEntries) :
    e.runId? = some s.id := by
  obtain ⟨i, hi, rfl⟩ := List.mem_mapIdx.mp h
  rfl

end Shorthand

/-- A run over its own members, behind the value that it goes on from. -/
theorem Shorthand.rebuilt_eq_self {s : Shorthand} {anchor : Option Field}
    (hchained : (anchor.isSome && s.kind != .jump) = s.chained)
    (hanchor : anchor.bind Field.toReal? = s.anchor) : s.rebuilt s.members anchor = s := by
  rw [Shorthand.rebuilt, hchained, hanchor]

namespace Item

def entries : Item → List ListEntry
  | field f => [.new f]
  | run s => s.ownEntries

end Item

theorem FieldList.entries_eq (l : FieldList) : l.entries = l.items.flatMap Item.entries := by
  unfold FieldList.entries
  exact List.flatMap_congr fun i _ ↦ by cases i <;> rfl

namespace Reconcile

open Shorthand

variable {t : Tolerance} {s : Shorthand}

/-! ## Growing over the own members -/

/-- The members of a run, from one of them on, are all taken, and nothing behind them. -/
theorem grow_own {edge : Field} {own behind : List ListEntry} {size : Nat}
    (hfree : ∀ e ∈ own, e.isFreeFor s.id = true)
    (hown : ∀ pre f g post, edge :: own.map (·.field) = pre ++ f :: g :: post →
      s.accepts t f g true (size + pre.length) = true)
    (hbehind : ∀ e ∈ behind.head?, e.isFreeFor s.id = true →
      ∀ f ∈ (edge :: own.map (·.field)).getLast?,
      s.accepts t f e.field true (size + own.length) = false) :
    grow t s true edge size (own ++ behind) = (own, behind) := by
  induction own generalizing edge size with
  | nil =>
    cases behind with
    | nil => rfl
    | cons e behind =>
      rw [List.nil_append, grow, if_neg]
      intro h
      rw [Bool.and_eq_true] at h
      have hno := hbehind e rfl h.1 edge rfl
      rw [List.length_nil, Nat.add_zero, h.2] at hno
      cases hno
  | cons e own ih =>
    rw [List.forall_mem_cons] at hfree
    have htakes := hown [] edge e.field (own.map (·.field)) rfl
    rw [List.length_nil, Nat.add_zero] at htakes
    rw [List.cons_append, grow, if_pos (by simp [hfree.1, htakes]), ih hfree.2]
    · intro pre f g post h
      have hnext := hown (edge :: pre) f g post (by simp [← h])
      rwa [List.length_cons, Nat.add_comm pre.length, ← Nat.add_assoc] at hnext
    · intro e' he' hfree' f hf
      have hnext := hbehind e' he' hfree' f (by simpa using hf)
      rwa [List.length_cons, Nat.add_comm own.length, ← Nat.add_assoc] at hnext

/-- Nothing is taken from the front if the first entry does not fit. -/
theorem grow_none {edge : Field} {es : List ListEntry} {forward : Bool} {size : Nat}
    (h : ∀ e ∈ es.head?, e.isFreeFor s.id = true → s.accepts t edge e.field forward size = false) :
    grow t s forward edge size es = ([], es) := by
  cases es with
  | nil => rfl
  | cons e es =>
    rw [grow, if_neg]
    intro htakes
    rw [Bool.and_eq_true] at htakes
    rw [h e rfl htakes.1] at htakes
    cases htakes.2

/-! ## Taking root -/

/-- A run that wins back its own members and no more, between the value right before it, plain
entries and the entries behind it. -/
structure WinsBack (t : Tolerance) (s : Shorthand) (anchor : Option Field) (fs : List Field)
    (behind : List ListEntry) : Prop where
  canRoot : ∀ f ∈ s.members.head?, canRootAt s f = true
  enough : s.minimumMembers s.chained ≤ s.members.length
  goesOn : s.chained = true → fs = [] ∧ ∃ a, anchor = some a ∧
    ∀ f ∈ s.members.head?, s.continuesFrom t a f = true
  fits : ∀ pre f g post, s.members = pre ++ f :: g :: post →
    s.accepts t f g true (pre.length + 1) = true
  before : s.chained = false →
    ∀ f ∈ fs.getLast?, ∀ g ∈ s.members.head?, s.accepts t g f false 1 = false
  behind : ∀ e ∈ behind.head?, e.isFreeFor s.id = true → ∀ g ∈ s.members.getLast?,
    s.accepts t g e.field true s.members.length = false

/-- Every run stands for at least one value. -/
theorem minimumMembers_pos (s : Shorthand) (chained : Bool) : 0 < s.minimumMembers chained := by
  unfold minimumMembers
  extract_lets lead
  split <;> omega

variable {anchor : Option Field} {fs : List Field} {behind : List ListEntry}

/-- The plain entries before a run do not belong to it. -/
theorem rootIn?_new (before es : List ListEntry) :
    rootIn? t s anchor before (fs.map .new ++ es) =
      rootIn? t s anchor ((fs.map .new).reverse ++ before) es := by
  induction fs generalizing before with
  | nil => rfl
  | cons f fs ih =>
    rw [List.map_cons, List.cons_append, rootIn?,
      if_neg (by simp [ListEntry.new, ListEntry.runId?]), ih]
    simp

/-- At its own first member a run takes root, and claims its own entries. -/
theorem WinsBack.rootAt? (h : WinsBack t s anchor fs behind) {e : ListEntry} {es : List ListEntry}
    (hown : s.ownEntries = e :: es) :
    rootAt? t s anchor (fs.map .new).reverse e (es ++ behind) =
      some (Segment.freeUnlessEmpty (fs.map .new) ++
        .claimed s s.chained s.ownEntries :: Segment.freeUnlessEmpty behind) := by
  have hmembers : s.members = e.field :: es.map (·.field) := by
    rw [← map_field_ownEntries, hown, List.map_cons]
  have hfirst : e.field ∈ s.members.head? := by
    rw [hmembers]
    rfl
  have hlength : es.length + 1 = s.members.length := by simp [hmembers]
  have hforth : grow t s true e.field 1 (es ++ behind) = (es, behind) := by
    refine grow_own (fun e' he' ↦ ?_) (fun pre f g post hpre ↦ ?_) (fun e' he' hfree f hf ↦ ?_)
    · have hid := runId?_of_mem_ownEntries (s := s) (hown ▸ List.mem_cons_of_mem e he')
      simp [ListEntry.isFreeFor, hid]
    · rw [Nat.add_comm]
      exact h.fits pre f g post (hmembers.trans hpre)
    · rw [Nat.add_comm, hlength]
      exact h.behind e' he' hfree f (hmembers ▸ hf)
  have hback : s.chained = false →
      grow t s false e.field 1 (fs.map ListEntry.new).reverse =
      ([], (fs.map ListEntry.new).reverse) := by
    intro hc
    refine grow_none fun e' he' _ ↦ ?_
    rw [List.head?_reverse, List.getLast?_map] at he'
    obtain ⟨f, hf, rfl⟩ := Option.map_eq_some_iff.mp he'
    exact h.before hc f hf e.field hfirst
  have hgrow : (if s.chained = true then ([], (fs.map ListEntry.new).reverse)
      else grow t s false e.field 1 (fs.map ListEntry.new).reverse) =
          ([], (fs.map ListEntry.new).reverse) := by
    split_ifs with hc
    · rfl
    · exact hback (by simpa using hc)
  have hlong : ¬(e :: es).length < s.minimumMembers s.chained := by
    have henough := h.enough
    rw [List.length_cons]
    omega
  unfold Reconcile.rootAt?
  rw [if_neg (by simp [h.canRoot e.field hfirst])]
  extract_lets chained
  have hchained : chained = s.chained := by
    cases hc : s.chained with
    | false => simp [chained, hc]
    | true =>
      obtain ⟨rfl, a, rfl, hgoes⟩ := h.goesOn hc
      simp [chained, hc, hgoes e.field hfirst]
  clear_value chained
  subst hchained
  simp only [hgrow, List.length_nil, Nat.zero_add, hforth, List.reverse_nil, List.nil_append,
    List.reverse_reverse, if_neg hlong, hown]

/-- A run that wins back its members has one. -/
theorem WinsBack.exists_ownEntries (h : WinsBack t s anchor fs behind) :
    ∃ e es, s.ownEntries = e :: es := by
  refine List.exists_cons_of_length_pos ?_
  have hlength := congrArg List.length (map_field_ownEntries s)
  rw [List.length_map] at hlength
  have hpos := minimumMembers_pos s s.chained
  have henough := h.enough
  omega

/-- A run looks for its root past plain entries, and finds it in its own first member. -/
theorem WinsBack.rootIn? (h : WinsBack t s anchor fs behind) :
    rootIn? t s anchor [] (fs.map .new ++ (s.ownEntries ++ behind)) =
      some (Segment.freeUnlessEmpty (fs.map .new) ++
        .claimed s s.chained s.ownEntries :: Segment.freeUnlessEmpty behind) := by
  obtain ⟨e, es, hown⟩ := h.exists_ownEntries
  have hid : e.runId? = some s.id := runId?_of_mem_ownEntries (s := s) (hown ▸ List.mem_cons_self)
  have hroot := h.rootAt? hown
  rw [rootIn?_new, List.append_nil, hown, List.cons_append, Reconcile.rootIn?,
    if_pos (by simp [hid]), hroot]
  simp only [hown]

/-! ## Placing the runs of a list -/

/-- The last value of a segment, if a run has claimed it. -/
def lastClaimed : Segment → Option Field
  | .free _ => none
  | .claimed _ _ es => es.getLast?.map (·.field)

/-- The value right before what stands behind the segments, if a run has claimed it. -/
def anchorOf (anchor : Option Field) (segments : List Segment) : Option Field :=
  segments.foldl (fun _ g ↦ lastClaimed g) anchor

/-- Among entries of other runs a run finds no root. -/
theorem rootIn?_eq_none {before es : List ListEntry} (h : ∀ e ∈ es, e.runId? ≠ some s.id) :
    rootIn? t s anchor before es = none := by
  induction es generalizing before with
  | nil => rfl
  | cons e es ih =>
    rw [List.forall_mem_cons] at h
    rw [Reconcile.rootIn?, if_neg (by simpa using h.1), ih h.2]

/-- A run passes over the segments that hold nothing of it. -/
theorem place?_append {done rest : List Segment}
    (h : ∀ es, .free es ∈ done → ∀ e ∈ es, e.runId? ≠ some s.id) :
    place? t s anchor (done ++ rest) =
      (place? t s (anchorOf anchor done) rest).map (done ++ ·) := by
  induction done generalizing anchor with
  | nil => simp [anchorOf]
  | cons segment done ih =>
    have hlater (a : Option Field) : place? t s a (done ++ rest) =
        (place? t s (anchorOf a done) rest).map (done ++ ·) :=
        ih fun es hes ↦ h es (List.mem_cons_of_mem _ hes)
    cases segment with
    | claimed r c es =>
      rw [List.cons_append, place?, hlater, Option.map_map]
      rfl
    | free es =>
      rw [List.cons_append, place?, rootIn?_eq_none (h es List.mem_cons_self)]
      dsimp only
      rw [hlater, Option.map_map]
      rfl

/-- Items that have been cut into segments, and the plain values at their end. -/
structure Division where
  segments : List Segment
  pending : List Field

namespace Division

def start : Division := ⟨[], []⟩

def push (d : Division) : Item → Division
  | .field f => { d with pending := d.pending ++ [f] }
  | .run s =>
    ⟨d.segments ++
      (Segment.freeUnlessEmpty (d.pending.map .new) ++ [.claimed s s.chained s.ownEntries]), []⟩

/-- Items of which each run has its own members. -/
def of (items : List Item) : Division := items.foldl push start

/-- The segments when more entries stand behind the items. -/
def all (d : Division) (rest : List ListEntry) : List Segment :=
  d.segments ++ Segment.freeUnlessEmpty (d.pending.map .new ++ rest)

/-- A division is made item by item. -/
theorem of_concat (items : List Item) (i : Item) : of (items ++ [i]) = (of items).push i := by
  simp [of]

/-- A run closes the stretch of plain values in front of it. -/
theorem push_run_all (d : Division) (s : Shorthand) (rest : List ListEntry) :
    (d.push (.run s)).all rest = d.segments ++ (Segment.freeUnlessEmpty (d.pending.map .new) ++
      .claimed s s.chained s.ownEntries :: Segment.freeUnlessEmpty rest) := by
  simp [push, all]

/-- A field is added to the stretch of plain values at the end. -/
theorem push_field_all (d : Division) (f : Field) (rest : List ListEntry) :
    (d.push (.field f)).all rest = d.all (.new f :: rest) := by
  simp [push, all]

@[simp] theorem of_nil : of [] = ⟨[], []⟩ := rfl

/-- What is pending are fields of the items. -/
theorem mem_of_pending {items : List Item} {f : Field} (h : f ∈ (of items).pending) :
    .field f ∈ items := by
  induction items using List.reverseRecOn with
  | nil => simp at h
  | append_singleton items i ih =>
    rw [of_concat] at h
    cases i with
    | field g =>
      rcases List.mem_append.mp h with h | h
      · exact List.mem_append_left _ (ih h)
      · rw [List.mem_singleton.mp h]
        exact List.mem_append_right _ List.mem_cons_self
    | run s => simp [push] at h

/-- What holds of the stretches of plain values and of the runs. -/
structure HoldsOf (P : Segment → Prop) (items : List Item) : Prop where
  free : ∀ fs : List Field, fs ≠ [] → (∀ f ∈ fs, .field f ∈ items) → P (.free (fs.map .new))
  claimed : ∀ s, .run s ∈ items → P (.claimed s s.chained s.ownEntries)

variable {P : Segment → Prop} {items : List Item}

/-- What holds of the segments of a list holds of those of its start. -/
theorem HoldsOf.of_append {more : List Item} (h : HoldsOf P (items ++ more)) : HoldsOf P items where
  free fs hne hfs := h.free fs hne fun f hf ↦ List.mem_append_left _ (hfs f hf)
  claimed s hs := h.claimed s (List.mem_append_left _ hs)

/-- The plain values at the end make up a segment of which the property holds. -/
theorem HoldsOf.pending (h : HoldsOf P items) :
    ∀ g ∈ Segment.freeUnlessEmpty ((of items).pending.map .new), P g := by
  unfold Segment.freeUnlessEmpty
  split_ifs with hempty
  · simp
  · rw [List.forall_mem_singleton]
    exact h.free _ (by simpa using hempty) fun f hf ↦ mem_of_pending hf

/-- The property holds of each segment that is closed. -/
theorem HoldsOf.segments (h : HoldsOf P items) : ∀ g ∈ (of items).segments, P g := by
  induction items using List.reverseRecOn with
  | nil => simp
  | append_singleton items i ih =>
    rw [of_concat]
    cases i with
    | field f => exact ih h.of_append
    | run s =>
      simp only [push, List.forall_mem_append, List.forall_mem_singleton]
      exact ⟨ih h.of_append, h.of_append.pending,
        h.claimed s (List.mem_append_right _ List.mem_cons_self)⟩

/-- The property holds of all segments, the one at the end included. -/
theorem HoldsOf.all (h : HoldsOf P items) : ∀ g ∈ (of items).all [], P g := by
  rw [Division.all, List.append_nil, List.forall_mem_append]
  exact ⟨h.segments, h.pending⟩

/-- A run that wins back its members is placed where it stood. -/
theorem place?_all {rest : List ListEntry}
    (h : WinsBack t s (anchorOf none (of items).segments) (of items).pending rest) :
    place? t s none ((of items).all (s.ownEntries ++ rest)) =
      some (((of items).push (.run s)).all rest) := by
  have hnew : HoldsOf (fun g ↦ ∀ es, g = .free es → ∀ e ∈ es, e.runId? ≠ some s.id) items := by
    constructor
    · rintro fs - - _ ⟨⟩ e he
      obtain ⟨f, -, rfl⟩ := List.mem_map.mp he
      simp [ListEntry.new, ListEntry.runId?]
    · rintro r - _ ⟨⟩
  have hnonempty :
      ((of items).pending.map ListEntry.new ++ (s.ownEntries ++ rest)).isEmpty = false := by
    obtain ⟨e, es, hown⟩ := h.exists_ownEntries
    simp [hown]
  rw [all, place?_append fun es hes ↦ hnew.segments _ hes es rfl, Segment.freeUnlessEmpty,
    hnonempty, if_neg Bool.false_ne_true, place?, h.rootIn?, push_run_all]
  simp

end Division

/-- Items whose runs all win back their own members. -/
structure OwnRuns (t : Tolerance) (items : List Item) : Prop where
  plain : ∀ f, .field f ∈ items → f.isJump = false
  written : ∀ s, .run s ∈ items → s.synthesized = false
  winsBack : ∀ pre s post, items = pre ++ .run s :: post →
    WinsBack t s (anchorOf none (Division.of pre).segments)
      (Division.of pre).pending (post.flatMap Item.entries)
  anchor_eq : ∀ pre s post, items = pre ++ .run s :: post →
    s.anchor = if s.chained then
    (anchorOf none (Division.of pre).segments).bind Field.toReal? else none

namespace OwnRuns

variable {items : List Item}

/-- Placed one after the other, the runs divide the entries as the items do. -/
theorem foldl_place (h : OwnRuns t items) {pre rest : List Item} (hitems : items = pre ++ rest) :
    (rest.filterMap Item.shorthand?).foldl (placeOrDissolve t)
      ((Division.of pre).all (rest.flatMap Item.entries)) = (Division.of items).all [] := by
  induction rest generalizing pre with
  | nil =>
    rw [List.append_nil] at hitems
    rw [hitems]
    rfl
  | cons i rest ih =>
    have hlater := @ih (pre ++ [i]) (by simp [hitems])
    rw [Division.of_concat] at hlater
    cases i with
    | field f =>
      rw [Division.push_field_all] at hlater
      exact hlater
    | run s =>
      have hplace := Division.place?_all (h.winsBack pre s rest hitems)
      have hstep :
        placeOrDissolve t ((Division.of pre).all (s.ownEntries ++ rest.flatMap Item.entries)) s =
          ((Division.of pre).push (.run s)).all (rest.flatMap Item.entries) := by
        rw [placeOrDissolve, hplace]
      rw [List.flatMap_cons, List.filterMap_cons]
      change (rest.filterMap Item.shorthand?).foldl (placeOrDissolve t) (placeOrDissolve t
        ((Division.of pre).all (s.ownEntries ++ rest.flatMap Item.entries)) s) = _
      rw [hstep]
      exact hlater

end OwnRuns

/-- Entries that are no open places are left as they are. -/
theorem claimJumps_of_plain {id : Nat} {es : List ListEntry} (hne : es ≠ [])
    (h : ∀ e ∈ es, e.field.isJump = false) : claimJumps id es = ([.free es], id) := by
  obtain ⟨e, es, rfl⟩ := List.exists_cons_of_ne_nil hne
  rw [List.forall_mem_cons] at h
  have hdrop : es.dropWhile (!·.field.isJump) = [] :=
    List.dropWhile_eq_nil_iff.mpr fun e he ↦ by simp [h.2 e he]
  have htake : es.takeWhile (!·.field.isJump) = es :=
    List.takeWhile_eq_self_iff.mpr fun e he ↦ by simp [h.2 e he]
  rw [claimJumps, h.1, if_neg Bool.false_ne_true, hdrop, htake, claimJumps]

/-- Without open places there is nothing for new jumps to claim. -/
theorem claimAllJumps_of_plain {id : Nat} {segments : List Segment}
    (h : ∀ es, .free es ∈ segments → es ≠ [] ∧ ∀ e ∈ es, e.field.isJump = false) :
    claimAllJumps id segments = (segments, id) := by
  induction segments with
  | nil => rfl
  | cons g rest ih =>
    have hrest := ih fun es hes ↦ h es (List.mem_cons_of_mem _ hes)
    cases g with
    | claimed s c es => rw [claimAllJumps, hrest]
    | free es =>
      obtain ⟨hne, hplain⟩ := h es List.mem_cons_self
      rw [claimAllJumps, claimJumps_of_plain hne hplain]
      dsimp only
      rw [hrest]
      rfl

/-- Runs that are written are never dropped. -/
theorem dropImplied_of_written {segments : List Segment}
    (h : ∀ s c es, .claimed s c es ∈ segments → s.synthesized = false) :
    dropImplied segments = segments := by
  unfold dropImplied
  split
  · next s c es hlast => rw [h s c es (List.mem_of_getLast? hlast), if_neg Bool.false_ne_true]
  · rfl

/-! ## The items of the segments -/

/-- The value in front of what stands behind the segments. -/
def lastOf (before : Option Field) (segments : List Segment) : Option Field :=
  segments.foldl (fun _ g ↦ g.entries.getLast?.map (·.field)) before

/-- The items of segments are made one after the other, each behind the last value before it. -/
theorem itemsOf_append (before : Option Field) (a b : List Segment) :
    itemsOf before (a ++ b) = itemsOf before a ++ itemsOf (lastOf before a) b := by
  induction a generalizing before with
  | nil => rfl
  | cons g a ih =>
    cases g with
    | free es => simp only [List.cons_append, itemsOf, ih, List.append_assoc]; rfl
    | claimed s c es => simp only [List.cons_append, itemsOf, ih]; rfl

/-- Plain entries become fields. -/
theorem itemsOf_freeUnlessEmpty (before : Option Field) (fs : List Field) :
    itemsOf before (Segment.freeUnlessEmpty (fs.map .new)) = fs.map .field := by
  unfold Segment.freeUnlessEmpty
  split_ifs with h
  · obtain rfl : fs = [] := by simpa using h
    rfl
  · simp [itemsOf, ListEntry.new]

/-- A value that a run can be anchored at is the last one before it. -/
theorem lastOf_of_anchorOf {segments : List Segment} {a : Field}
    (h : anchorOf none segments = some a) (before : Option Field) :
    lastOf before segments = some a := by
  induction segments using List.reverseRecOn with
  | nil => cases h
  | append_singleton segments g _ =>
    rw [anchorOf, List.foldl_concat] at h
    rw [lastOf, List.foldl_concat]
    cases g with
    | free es => cases h
    | claimed s c es => exact h

namespace OwnRuns

variable {items : List Item}

/-- What is known of a run in the middle of the items. -/
theorem exists_anchor {pre post : List Item} (h : OwnRuns t items)
    (hitems : items = pre ++ .run s :: post) (hchained : s.chained = true) :
    (Division.of pre).pending = [] ∧ s.kind ≠ .jump ∧
      ∃ a, anchorOf none (Division.of pre).segments = some a ∧ s.anchor = a.toReal? := by
  have hback := h.winsBack pre s post hitems
  obtain ⟨e, es, hown⟩ := hback.exists_ownEntries
  obtain ⟨hpending, a, ha, hgoes⟩ := hback.goesOn hchained
  refine ⟨hpending, ?_, a, ha, ?_⟩
  · intro hkind
    have hfirst : e.field ∈ s.members.head? := by
      rw [← map_field_ownEntries, hown]
      rfl
    have hno := hgoes e.field hfirst
    simp [continuesFrom, hkind] at hno
  · rw [h.anchor_eq pre s post hitems, if_pos hchained, ha]
    rfl

/-- A run over its own members is the run that was there. -/
theorem rebuilt_eq {pre post : List Item} (h : OwnRuns t items)
    (hitems : items = pre ++ .run s :: post) {before : Option Field}
    (hbefore : (Division.of pre).pending = [] → ∀ a,
      anchorOf none (Division.of pre).segments = some a → before = some a) :
    s.rebuilt s.members (if s.chained then before else none) = s := by
  cases hchained : s.chained with
  | false =>
    have hanchor := h.anchor_eq pre s post hitems
    rw [hchained, if_neg Bool.false_ne_true] at hanchor
    exact rebuilt_eq_self hchained.symm hanchor.symm
  | true =>
    obtain ⟨hpending, hkind, a, ha, hreal⟩ := h.exists_anchor hitems hchained
    rw [if_pos rfl, hbefore hpending a ha]
    exact rebuilt_eq_self (by simp [hchained, hkind]) hreal.symm

/-- The segments give the items back. -/
theorem itemsOf_segments (h : OwnRuns t items) {pre post : List Item}
    (hitems : items = pre ++ post) :
    itemsOf none (Division.of pre).segments ++ (Division.of pre).pending.map .field = pre := by
  induction pre using List.reverseRecOn generalizing post with
  | nil => rfl
  | append_singleton pre i ih =>
    rw [List.append_assoc, List.singleton_append] at hitems
    have hpre := ih hitems
    rw [Division.of_concat]
    cases i with
    | field f =>
      simp only [Division.push, List.map_append, ← List.append_assoc]
      rw [hpre]
      rfl
    | run s =>
      have hlast : (Division.of pre).pending = [] → ∀ a, anchorOf none (Division.of pre).segments =
        some a →
          lastOf none ((Division.of pre).segments ++
          Segment.freeUnlessEmpty ((Division.of pre).pending.map .new)) =
            some a := by
        intro hpending a ha
        rw [hpending]
        simpa [Segment.freeUnlessEmpty] using lastOf_of_anchorOf ha none
      simp only [Division.push, List.map_nil, List.append_nil, ← List.append_assoc]
      rw [itemsOf_append, itemsOf_append, itemsOf_freeUnlessEmpty, hpre]
      simp only [itemsOf, map_field_ownEntries, h.rebuilt_eq hitems hlast]

/-- The segments of items that have their own runs become these items again. -/
theorem itemsOf_all (h : OwnRuns t items) : itemsOf none ((Division.of items).all []) = items := by
  rw [Division.all, List.append_nil, itemsOf_append, itemsOf_freeUnlessEmpty]
  exact h.itemsOf_segments (List.append_nil items).symm

end OwnRuns

end Reconcile

open Reconcile

/-- Without layout behind an item there is nothing to clear. -/
theorem clearBlankTrailing_of_none {i : Item} (h : i.trailing? = none) :
    clearBlankTrailing i = i := by
  rw [clearBlankTrailing, h]

/-- The last item is not changed if the change leaves it as it is. -/
theorem FieldList.mapLastItem_eq_self {g : Item → Item} {l : FieldList}
    (h : ∀ i ∈ l.items.getLast?, g i = i) : l.mapLastItem g = l := by
  unfold mapLastItem
  split
  · next i hlast =>
    rw [h i hlast, List.dropLast_append_getLast? i hlast]
  · rfl

namespace Reconcile.OwnRuns

variable {t : Tolerance} {items : List Item}

/-- Items stand for at least one entry. -/
theorem exists_entries (h : OwnRuns t items) (hne : items ≠ []) :
    items.flatMap Item.entries ≠ [] := by
  obtain ⟨i, rest, rfl⟩ := List.exists_cons_of_ne_nil hne
  cases i with
  | field f => simp [Item.entries]
  | run s =>
    obtain ⟨e, es, hown⟩ := (h.winsBack [] s rest rfl).exists_ownEntries
    simp [Item.entries, hown]

/-- No open place is left to be claimed. -/
theorem claimAllJumps_eq (h : OwnRuns t items) (id : Nat) :
    claimAllJumps id ((Division.of items).all []) = ((Division.of items).all [], id) := by
  have hplain : Division.HoldsOf
      (fun g ↦ ∀ es, g = .free es → es ≠ [] ∧ ∀ e ∈ es, e.field.isJump = false) items := by
    constructor
    · rintro fs hne hfs _ ⟨⟩
      refine ⟨by simpa using hne, fun e he ↦ ?_⟩
      obtain ⟨f, hf, rfl⟩ := List.mem_map.mp he
      exact h.plain f (hfs f hf)
    · rintro s - _ ⟨⟩
  exact claimAllJumps_of_plain fun es hes ↦ hplain.all _ hes es rfl

/-- None of the segments is dropped: their runs were written. -/
theorem dropImplied_eq (h : OwnRuns t items) :
    dropImplied ((Division.of items).all []) = (Division.of items).all [] := by
  have hwritten : Division.HoldsOf
      (fun g ↦ ∀ s c es, g = .claimed s c es → s.synthesized = false) items := by
    constructor
    · rintro fs - - _ _ _ ⟨⟩
    · rintro s hs _ _ _ ⟨⟩
      exact h.written s hs
  exact dropImplied_of_written fun s c es hes ↦ hwritten.all _ hes s c es rfl

end Reconcile.OwnRuns

/-- A list whose runs win back their members is built anew as it was. -/
theorem FieldList.reconcile_entries {t : Tolerance} {l : FieldList} (hne : l.items ≠ [])
    (h : OwnRuns t l.items) (htrailing : ∀ i ∈ l.items.getLast?, i.trailing? = none) :
    l.reconcile t l.entries = { l with rebuilt := true } := by
  have hentries : l.entries.isEmpty = false := by
    rw [l.entries_eq]
    simpa using h.exists_entries hne
  have hstart : (Division.of []).all (l.items.flatMap Item.entries) = [.free l.entries] := by
    rw [← l.entries_eq, Division.all]
    simp [Segment.freeUnlessEmpty, hentries]
  have hplaced := h.foldl_place (List.nil_append l.items).symm
  rw [hstart] at hplaced
  unfold reconcile
  rw [hentries, if_neg Bool.false_ne_true]
  simp only [hplaced, h.claimAllJumps_eq, h.dropImplied_eq, h.itemsOf_all]
  exact mapLastItem_eq_self fun i hi ↦ clearBlankTrailing_of_none (htrailing i hi)

end TransportDeck
