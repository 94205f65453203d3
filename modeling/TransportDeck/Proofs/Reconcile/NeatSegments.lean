import TransportDeck.Proofs.Node.TidyItems
import TransportDeck.Proofs.Reconcile.NewList

/-!
# Segments that can be written

The values of a list of whole numbers are set, and its runs take their places again.  No run gets a
first value without a layout behind it in front of its count, for that value is either its own, or
stands before one of its own; and a run that is chained goes on from the value before it.
-/

namespace TransportDeck

open Shorthand

/-! ## Entries -/

namespace ListEntry

variable {e : ListEntry}

/-- Something stands behind the entry. -/
def HasRoom (e : ListEntry) : Prop := layoutText e.field.layout ≠ ""

/-- Something stands behind an entry of no run that has one of a run somewhere behind it. -/
def HasRoomBefore (e e' : ListEntry) : Prop := e.origin = none → e'.origin ≠ none → e.HasRoom

/-- An entry that belongs to a run has an origin. -/
theorem origin_ne_none {id : Nat} (h : e.runId? = some id) : e.origin ≠ none := fun hnone ↦ by
  rw [runId?, hnone] at h
  cases h

/-- An entry that is free for a run is new, or it belongs to that run. -/
theorem origin_of_isFreeFor {id : Nat} (h : e.isFreeFor id = true) :
    e.origin = none ∨ e.runId? = some id := by
  unfold isFreeFor at h
  split at h
  · next hnone => exact .inl (Option.map_eq_none_iff.mp hnone)
  · next other hother => exact .inr (by rw [hother, eq_of_beq h])

end ListEntry

/-- A tidy field may get a gap behind it. -/
theorem Field.IsTidy.setLayout {f : Field} (h : f.IsTidy) {l : Layout} (hl : l.IsGap false) :
    (f.setLayout (some l)).IsTidy where
  kind_eq := h.kind_eq
  plain := h.plain
  real := h.real
  read := h.read
  gap := by
    rintro _ ⟨⟩
    exact hl

namespace Reconcile

variable {t : Tolerance} {s : Shorthand} {g : Segment} {segments : List Segment}
  {runs : List Shorthand} {es : List ListEntry}

/-! ## Rooms -/

/-- All that is known of a segment while some runs have no place yet. -/
structure Neat (runs : List Shorthand) (g : Segment) : Prop where
  tidy : ∀ e ∈ g.entries, e.field.IsTidy
  before : ∀ es, g = .free es → es.Pairwise ListEntry.HasRoomBefore
  own : ∀ es, g = .free es → ∀ s ∈ runs, s.kind = .copies →
    ∀ e ∈ es, e.runId? = some s.id → e.HasRoom
  claimed : ∀ s c es, g = .claimed s c es →
    s.IsTidy ∧ (s.kind = .copies → c = false → ∀ e ∈ es.head?, e.HasRoom)

/-- What is neat while one more run has no place is neat without that run. -/
theorem Neat.of_cons (h : Neat (s :: runs) g) : Neat runs g where
  tidy := h.tidy
  before := h.before
  own es heq s hs := h.own es heq s (List.mem_cons_of_mem _ hs)
  claimed := h.claimed

/-- A free segment is neat if its entries are tidy and apart. -/
theorem Neat.of_free (htidy : ∀ e ∈ es, e.field.IsTidy)
    (hbefore : es.Pairwise ListEntry.HasRoomBefore)
    (hown : ∀ s ∈ runs, s.kind = .copies → ∀ e ∈ es, e.runId? = some s.id → e.HasRoom) :
    Neat runs (.free es) where
  tidy := htidy
  before := by
    intro es' heq
    obtain rfl := Segment.free.inj heq
    exact hbefore
  own := by
    intro es' heq
    obtain rfl := Segment.free.inj heq
    exact hown
  claimed := by
    intro s c es' heq
    cases heq

/-- A claimed segment is neat if its run and its entries are tidy. -/
theorem Neat.of_claimed {c : Bool} (hs : s.IsTidy) (htidy : ∀ e ∈ es, e.field.IsTidy)
    (hroom : s.kind = .copies → c = false → ∀ e ∈ es.head?, e.HasRoom) :
    Neat runs (.claimed s c es) where
  tidy := htidy
  before := by
    intro es' heq
    cases heq
  own := by
    intro es' heq
    cases heq
  claimed := by
    intro s' c' es' heq
    obtain ⟨rfl, rfl, rfl⟩ := Segment.claimed.inj heq
    exact ⟨hs, hroom⟩

/-- The unclaimed entries of a stretch are those of the segment. -/
theorem Neat.free_of_sublist {es' : List ListEntry} (h : Neat runs (.free es))
    (hsub : es'.Sublist es) : Neat runs (.free es') :=
  .of_free (fun e he ↦ h.tidy e (hsub.subset he)) ((h.before es rfl).sublist hsub)
    fun s hs hkind e he ↦ h.own es rfl s hs hkind e (hsub.subset he)

/-- Part of a neat free segment is neat. -/
theorem neat_freeUnlessEmpty {es' : List ListEntry} (h : Neat runs (.free es))
    (hsub : es'.Sublist es) : ∀ g ∈ Segment.freeUnlessEmpty es', Neat runs g := by
  unfold Segment.freeUnlessEmpty
  split_ifs
  · exact List.forall_mem_nil _
  · exact List.forall_mem_singleton.mpr (h.free_of_sublist hsub)

/-- What a run grows over was free for it. -/
theorem isFreeFor_of_mem_grow {forward : Bool} {edge : Field} {size : Nat} {e : ListEntry}
    (h : e ∈ (grow t s forward edge size es).1) : e.isFreeFor s.id = true := by
  induction es generalizing edge size with
  | nil => cases h
  | cons d es ih =>
    rw [grow] at h
    split_ifs at h with hd
    · rcases List.mem_cons.mp h with rfl | h
      · exact (Bool.and_eq_true .. ▸ hd).1
      · exact ih h
    · cases h

namespace Rooting

variable {anchor : Option Field} {before behind : List ListEntry} {root : ListEntry}

/-- What a run grows over backwards was free for it. -/
theorem isFreeFor_back (r : Rooting t s anchor before root behind) :
    ∀ e ∈ r.back, e.isFreeFor s.id = true := by
  have h := r.grow_back
  split_ifs at h
  · rw [← (Prod.mk.inj h).1]
    exact List.forall_mem_nil _
  · intro e he
    have he : e ∈ (grow t s false root.field 1 before).1 := by rwa [h]
    exact isFreeFor_of_mem_grow he

/-- The first value of a run that takes root has something behind it. -/
theorem hasRoom_head (r : Rooting t s anchor before root behind) (hroot : root.runId? = some s.id)
    (hneat : Neat (s :: runs) (.free (before.reverse ++ root :: behind)))
    (hkind : s.kind = .copies) : ∀ e ∈ (r.back.reverse ++ root :: r.forth).head?, e.HasRoom := by
  intro e he
  have hmem : e ∈ r.back ∨ e = root := by
    have := List.mem_of_mem_head? he
    cases hback : r.back.reverse with
    | nil =>
      rw [hback] at he
      exact .inr (Option.some.inj he).symm
    | cons d ds =>
      rw [hback] at he
      obtain rfl : d = e := Option.some.inj he
      exact .inl (List.mem_reverse.mp (hback ▸ List.mem_cons_self))
  have hsub : ∀ d ∈ r.back, d ∈ before.reverse := fun d hd ↦
    List.mem_reverse.mpr (r.back_append ▸ List.mem_append_left _ hd)
  have own (h : e ∈ before.reverse ++ root :: behind) (hid : e.runId? = some s.id) : e.HasRoom :=
    hneat.own _ rfl s List.mem_cons_self hkind e h hid
  rcases hmem with hmem | rfl
  · rcases ListEntry.origin_of_isFreeFor (r.isFreeFor_back e hmem) with hnone | hid
    · -- It stands before the root, which is an entry of the run.
      have hpairs := List.pairwise_append.mp (hneat.before _ rfl)
      exact hpairs.2.2 e (hsub e hmem) root List.mem_cons_self hnone
        (ListEntry.origin_ne_none hroot)
    · exact own (List.mem_append_left _ (hsub e hmem)) hid
  · exact own (by simp) hroot

/-- Rooting a tidy run in a neat segment gives neat segments. -/
theorem neat (r : Rooting t s anchor before root behind) (hroot : root.runId? = some s.id)
    (hs : s.IsTidy) (hneat : Neat (s :: runs) (.free (before.reverse ++ root :: behind))) :
    ∀ g ∈ r.segments, Neat runs g := by
  have hroom := r.hasRoom_head hroot hneat
  have hall : before.reverse ++ root :: behind =
      r.left.reverse ++ ((r.back.reverse ++ root :: r.forth) ++ r.right) := by
    have hback := congrArg List.reverse r.back_append
    rw [List.reverse_append] at hback
    simp [← hback, r.forth_append]
  rw [hall] at hneat
  have hleft :=
    List.sublist_append_left r.left.reverse ((r.back.reverse ++ root :: r.forth) ++ r.right)
  have hright :
      r.right.Sublist (r.left.reverse ++ ((r.back.reverse ++ root :: r.forth) ++ r.right)) :=
    (List.sublist_append_right _ _).trans (List.sublist_append_right _ _)
  refine List.forall_mem_append.mpr ⟨neat_freeUnlessEmpty hneat.of_cons hleft,
    List.forall_mem_cons.mpr ⟨.of_claimed hs (fun e he ↦ hneat.tidy e ?_) fun hkind _ ↦ hroom hkind,
      neat_freeUnlessEmpty hneat.of_cons hright⟩⟩
  exact List.mem_append_right _ (List.mem_append_left _ he)

end Rooting

/-- Placing a tidy run among neat segments leaves them neat. -/
theorem neat_place? {anchor : Option Field} {placed : List Segment} (hs : s.IsTidy)
    (hneat : ∀ g ∈ segments, Neat (s :: runs) g) (h : place? t s anchor segments = some placed) :
    ∀ g ∈ placed, Neat runs g := by
  induction segments generalizing anchor placed with
  | nil => cases h
  | cons g rest ih =>
    obtain ⟨hg, hrest⟩ := List.forall_mem_cons.mp hneat
    cases g with
    | claimed r c es =>
      obtain ⟨rest', hplaced, rfl⟩ := Option.map_eq_some_iff.mp h
      exact List.forall_mem_cons.mpr ⟨hg.of_cons, ih hrest hplaced⟩
    | free es =>
      rw [place?] at h
      split at h
      · next hroot =>
        obtain ⟨_, _, _, r, rfl, hid, heq⟩ := exists_rooting_of_rootIn? hroot
        obtain rfl := Option.some.inj h
        rw [List.reverse_nil, List.nil_append] at heq
        rw [← heq] at hg
        exact List.forall_mem_append.mpr ⟨r.neat hid hs hg, fun g hg ↦ (hrest g hg).of_cons⟩
      · obtain ⟨rest', hplaced, rfl⟩ := Option.map_eq_some_iff.mp h
        exact List.forall_mem_cons.mpr ⟨hg.of_cons, ih hrest hplaced⟩

/-! ## Runs that are gone -/

/-- One entry that came from the run gets the layout. -/
theorem exists_of_setLastOf {id : Nat} {l : Layout} {es' : List ListEntry}
    (h : setLastOf id l es = some es') : ∃ pre e post, es = pre ++ e :: post ∧ e.runId? = some id ∧
      es' = pre ++ { e with field := e.field.setLayout (some l) } :: post := by
  induction es generalizing es' with
  | nil => cases h
  | cons e es ih =>
    rw [setLastOf] at h
    split at h
    · next later hlater =>
      obtain rfl := Option.some.inj h
      obtain ⟨pre, d, post, rfl, hd, rfl⟩ := ih hlater
      exact ⟨e :: pre, d, post, rfl, hd, rfl⟩
    · split_ifs at h with hid
      obtain rfl := Option.some.inj h
      exact ⟨[], e, es, rfl, eq_of_beq hid, rfl⟩

/-- A gap behind the last entry of a run leaves a free segment neat. -/
theorem Neat.setLastOf {l : Layout} {es' : List ListEntry} (h : Neat (s :: runs) (.free es))
    (hids : ∀ r ∈ runs, r.id ≠ s.id) (hl : l.IsGap false) (heq : setLastOf s.id l es = some es') :
    Neat runs (.free es') := by
  obtain ⟨pre, e, post, rfl, he, rfl⟩ := exists_of_setLastOf heq
  have horigin := ListEntry.origin_ne_none he
  refine .of_free ?_ ?_ fun r hr hkind d hd hid ↦ ?_
  · have htidy := h.tidy
    simp only [Segment.entries, List.mem_append, List.mem_cons] at htidy ⊢
    rintro d (hd | rfl | hd)
    · exact htidy d (.inl hd)
    · exact (htidy e (.inr (.inl rfl))).setLayout hl
    · exact htidy d (.inr (.inr hd))
  · -- The entry is one of a run, so it need not have room itself.
    have hpairs := h.before _ rfl
    rw [List.pairwise_append, List.pairwise_cons] at hpairs ⊢
    obtain ⟨hpre, ⟨-, hpost⟩, hcross⟩ := hpairs
    refine ⟨hpre, ⟨fun _ _ hnone ↦ absurd hnone horigin, hpost⟩, fun a ha b hb hnone hsome ↦ ?_⟩
    rcases List.mem_cons.mp hb with rfl | hb
    · exact hcross a ha e List.mem_cons_self hnone hsome
    · exact hcross a ha b (List.mem_cons_of_mem _ hb) hnone hsome
  · have hown := h.own _ rfl r (List.mem_cons_of_mem _ hr) hkind
    simp only [List.mem_append, List.mem_cons] at hown hd
    rcases hd with hd | rfl | hd
    · exact hown d (.inl hd) hid
    · exact absurd (Option.some.inj (he.symm.trans hid)).symm (hids r hr)
    · exact hown d (.inr (.inr hd)) hid

/-- A gap behind the last entry of a run leaves the segments neat. -/
theorem neat_setLastIn {l : Layout} {changed : List Segment}
    (hneat : ∀ g ∈ segments, Neat (s :: runs) g) (hids : ∀ r ∈ runs, r.id ≠ s.id)
    (hl : l.IsGap false) (h : setLastIn s.id l segments = some changed) :
    ∀ g ∈ changed, Neat runs g := by
  induction segments generalizing changed with
  | nil => cases h
  | cons g rest ih =>
    obtain ⟨hg, hrest⟩ := List.forall_mem_cons.mp hneat
    cases hlater : setLastIn s.id l rest with
    | some rest' =>
      simp only [setLastIn, hlater, Option.some.injEq] at h
      subst h
      exact List.forall_mem_cons.mpr ⟨hg.of_cons, ih hrest hlater⟩
    | none =>
      cases g with
      | claimed r c es => simp [setLastIn, hlater] at h
      | free es =>
        simp only [setLastIn, hlater] at h
        obtain ⟨es', hes, rfl⟩ := Option.map_eq_some_iff.mp h
        exact List.forall_mem_cons.mpr ⟨hg.setLastOf hids hl hes, fun g hg ↦ (hrest g hg).of_cons⟩

/-- A run that is placed or dissolved leaves the segments neat. -/
theorem neat_placeOrDissolve (hs : s.IsTidy) (hids : ∀ r ∈ runs, r.id ≠ s.id)
    (hneat : ∀ g ∈ segments, Neat (s :: runs) g) :
    ∀ g ∈ placeOrDissolve t segments s, Neat runs g := by
  unfold placeOrDissolve
  split
  · next h => exact neat_place? hs hneat h
  · unfold handOverLayout
    split
    · next l hl =>
      cases h : setLastIn s.id l segments with
      | none => exact fun g hg ↦ (hneat g hg).of_cons
      | some changed => exact neat_setLastIn hneat hids (hs.gap l hl) h
    · exact fun g hg ↦ (hneat g hg).of_cons

/-- All the runs of a list, one after the other, leave the segments neat. -/
theorem neat_foldl (htidy : ∀ s ∈ runs, s.IsTidy) (hids : (runs.map (·.id)).Nodup)
    (hneat : ∀ g ∈ segments, Neat runs g) :
    ∀ g ∈ runs.foldl (placeOrDissolve t) segments, Neat [] g := by
  induction runs generalizing segments with
  | nil => exact hneat
  | cons s runs ih =>
    obtain ⟨hs, htidy⟩ := List.forall_mem_cons.mp htidy
    obtain ⟨hid, hids⟩ := List.nodup_cons.mp hids
    exact ih htidy hids
      (neat_placeOrDissolve hs (fun r hr heq ↦ hid (List.mem_map.mpr ⟨r, hr, heq⟩)) hneat)

/-! ## Open places -/

/-- A new jump is tidy. -/
theorem isTidy_newJump (id : Nat) (members : List Field) : (newJump id members).IsTidy where
  counts := .inl rfl
  letter := by
    have hletters : "J".toList = ['J'] := rfl
    exact ⟨'J', hletters, rfl⟩
  count := by rintro _ ⟨⟩
  gap := by
    rintro _ ⟨⟩
    exact Layout.isGap_gap

/-- The jumps over open places are neat, and so is what is left between them. -/
theorem neat_claimJumps (id : Nat) (hneat : Neat [] (.free es)) :
    ∀ g ∈ (claimJumps id es).1, Neat [] g := by
  fun_induction claimJumps id es with
  | case1 id => exact List.forall_mem_nil _
  | case2 id e es hjump rest next hrest ih =>
    rw [hrest] at ih
    refine List.forall_mem_cons.mpr ⟨.of_claimed (isTidy_newJump id []) (fun d hd ↦ hneat.tidy d ?_)
      (fun hkind ↦ by cases hkind), ih ?_⟩
    · exact ((List.takeWhile_sublist _).cons_cons _).subset hd
    · exact hneat.free_of_sublist ((List.dropWhile_sublist _).cons _)
  | case3 id e es hjump rest next hrest ih =>
    rw [hrest] at ih
    refine List.forall_mem_cons.mpr
      ⟨hneat.free_of_sublist ((List.takeWhile_sublist _).cons_cons _), ih ?_⟩
    exact hneat.free_of_sublist ((List.dropWhile_sublist _).cons _)

/-- With all open places claimed, the segments are neat. -/
theorem neat_claimAllJumps (id : Nat) (hneat : ∀ g ∈ segments, Neat [] g) :
    ∀ g ∈ (claimAllJumps id segments).1, Neat [] g := by
  induction segments generalizing id with
  | nil => exact List.forall_mem_nil _
  | cons g rest ih =>
    obtain ⟨hg, hrest⟩ := List.forall_mem_cons.mp hneat
    cases g with
    | claimed s c es => exact List.forall_mem_cons.mpr ⟨hg, ih id hrest⟩
    | free es => exact List.forall_mem_append.mpr ⟨neat_claimJumps id hg, ih _ hrest⟩

end Reconcile

/-!
## Repeats that are chained

A repeat without a first value of its own goes on from the value before it.  Only a run that takes
root right behind another one is chained, and no later placement comes between them.
-/

open Shorthand

namespace Reconcile

variable {t : Tolerance} {s : Shorthand} {before : Option Value}
  {a b segments placed : List Segment} {es : List ListEntry}

/-- The last of the values, or the one before them. -/
def lastValue (before : Option Value) (vs : List (Option Value)) : Option Value :=
  vs.getLast?.getD before

/-- The last of two stretches of values is the last of the second, if that has one. -/
theorem lastValue_append (before : Option Value) (vs ws : List (Option Value)) :
    lastValue before (vs ++ ws) = lastValue (lastValue before vs) ws := by
  rw [lastValue, List.getLast?_append, lastValue, lastValue]
  cases ws.getLast? <;> rfl

/-- Every chained repeat goes on from the value before it. -/
def Linked (t : Tolerance) : Option Value → List Segment → Prop
  | _, [] => True
  | before, g :: rest =>
    (∀ s es, g = .claimed s true es → s.kind = .copies →
      Within t before (es.map ListEntry.value).head?.join) ∧
      Linked t (lastValue before (g.entries.map ListEntry.value)) rest

theorem Linked.of_append (h : Linked t before (a ++ b)) : Linked t before a := by
  induction a generalizing before with
  | nil => trivial
  | cons g a ih => exact ⟨h.1, ih h.2⟩

/-- Free entries link what follows to their last value. -/
theorem linked_free :
    Linked t before (.free es :: b) ↔ Linked t (lastValue before (es.map ListEntry.value)) b := by
  refine ⟨And.right, fun h ↦ ⟨?_, h⟩⟩
  intro s es' heq
  cases heq

/-- A run that is not chained links what follows to its last value. -/
theorem linked_unchained : Linked t before (.claimed s false es :: b) ↔
    Linked t (lastValue before (es.map ListEntry.value)) b := by
  refine ⟨And.right, fun h ↦ ⟨?_, h⟩⟩
  intro s' es' heq
  cases heq

theorem linked_freeUnlessEmpty (es : List ListEntry) :
    Linked t before (Segment.freeUnlessEmpty es ++ b) ↔
      Linked t (lastValue before (es.map ListEntry.value)) b := by
  unfold Segment.freeUnlessEmpty
  split_ifs with hempty
  · rw [List.isEmpty_iff.mp hempty]
    rfl
  · exact linked_free

/-! ## Placing runs -/

/-- A chained run takes root right behind its anchor. -/
theorem Rooting.linked {anchor : Option Field} {front behind : List ListEntry} {root : ListEntry}
    (r : Rooting t s anchor front root behind) (hanchor : ∀ f ∈ anchor, before = f.signed)
    (h : Linked t before (.free (front.reverse ++ root :: behind) :: b)) :
    Linked t before (r.segments ++ b) := by
  have hvalues : front.reverse ++ root :: behind = r.left.reverse ++
      (r.back.reverse ++ root :: r.forth) ++ r.right := by
    have hback := congrArg List.reverse r.back_append
    rw [List.reverse_append] at hback
    simp [← hback, r.forth_append]
  rw [linked_free, hvalues, List.map_append, List.map_append,
    lastValue_append, lastValue_append] at h
  rw [Rooting.segments, List.append_assoc, linked_freeUnlessEmpty]
  refine ⟨fun s' es heq hkind ↦ ?_, (linked_freeUnlessEmpty _).mpr h⟩
  obtain ⟨rfl, hchained, rfl⟩ := Segment.claimed.inj heq
  obtain ⟨-, rfl, f, hf, hfits⟩ := r.chained_imp hchained
  obtain ⟨hback, hleft⟩ := List.append_eq_nil_iff.mp r.back_append
  have htakes : s.Takes t true f root.field := ⟨1, by simpa [continuesFrom, hkind] using hfits⟩
  rw [hanchor f hf, hback, hleft]
  exact htakes.within hkind

/-- Placing a run keeps chained repeats linked to the values before them. -/
theorem linked_place? {anchor : Option Field} (hanchor : ∀ f ∈ anchor, before = f.signed)
    (h : Linked t before segments) (hplace : place? t s anchor segments = some placed) :
    Linked t before placed := by
  induction segments generalizing before anchor placed with
  | nil => cases hplace
  | cons g rest ih =>
    cases g with
    | claimed r c es =>
      obtain ⟨rest', hplaced, rfl⟩ := Option.map_eq_some_iff.mp hplace
      refine ⟨h.1, ih (fun f hf ↦ ?_) h.2 hplaced⟩
      obtain ⟨e, he, rfl⟩ := Option.map_eq_some_iff.mp hf
      rw [lastValue, Segment.entries, List.getLast?_map, he]
      rfl
    | free es =>
      rw [place?] at hplace
      split at hplace
      · next hroot =>
        obtain ⟨_, _, _, r, rfl, -, heq⟩ := exists_rooting_of_rootIn? hroot
        obtain rfl := Option.some.inj hplace
        rw [List.reverse_nil, List.nil_append] at heq
        exact r.linked hanchor (heq ▸ h)
      · obtain ⟨rest', hplaced, rfl⟩ := Option.map_eq_some_iff.mp hplace
        exact linked_free.mpr (ih (fun f hf ↦ by cases hf) (linked_free.mp h) hplaced)

/-- Another layout does not change what repeats are linked to. -/
theorem linked_setLastIn {id : Nat} {l : Layout} {changed : List Segment}
    (h : Linked t before segments) (hset : setLastIn id l segments = some changed) :
    Linked t before changed := by
  induction segments generalizing before changed with
  | nil => cases hset
  | cons g rest ih =>
    cases hlater : setLastIn id l rest with
    | some rest' =>
      simp only [setLastIn, hlater, Option.some.injEq] at hset
      subst hset
      exact ⟨h.1, ih h.2 hlater⟩
    | none =>
      cases g with
      | claimed r c es => simp [setLastIn, hlater] at hset
      | free es =>
        simp only [setLastIn, hlater] at hset
        obtain ⟨es', hes, rfl⟩ := Option.map_eq_some_iff.mp hset
        rw [linked_free] at h ⊢
        rwa [values_setLastOf hes]

/-- All the runs of a list, one after the other, keep chained repeats linked. -/
theorem linked_foldl (runs : List Shorthand) (h : Linked t none segments) :
    Linked t none (runs.foldl (placeOrDissolve t) segments) := by
  induction runs generalizing segments with
  | nil => exact h
  | cons s runs ih =>
    refine ih ?_
    unfold placeOrDissolve
    split
    · next hplace =>
      refine linked_place? ?_ h hplace
      rintro _ ⟨⟩
    · unfold handOverLayout
      split
      · next l _ =>
        cases hset : setLastIn s.id l segments with
        | none => exact h
        | some changed => exact linked_setLastIn h hset
      · exact h

/-! ## Open places -/

/-- Jumps over open places keep chained repeats linked. -/
theorem linked_claimJumps (id : Nat) (es : List ListEntry) (h : Linked t before (.free es :: b)) :
    Linked t before ((claimJumps id es).1 ++ b) := by
  fun_induction claimJumps id es generalizing before with
  | case1 id => exact linked_free.mp h
  | case2 id e es hjump rest next hrest ih =>
    rw [hrest] at ih
    refine linked_unchained.mpr (ih (linked_free.mpr ?_))
    rwa [← lastValue_append, ← List.map_append, List.cons_append, List.takeWhile_append_dropWhile,
      ← linked_free]
  | case3 id e es hjump rest next hrest ih =>
    rw [hrest] at ih
    refine linked_free.mpr (ih (linked_free.mpr ?_))
    rwa [← lastValue_append, ← List.map_append, List.cons_append, List.takeWhile_append_dropWhile,
      ← linked_free]

/-- With all open places claimed, chained repeats are linked to the values before them. -/
theorem linked_claimAllJumps (id : Nat) (h : Linked t before segments) :
    Linked t before (claimAllJumps id segments).1 := by
  induction segments generalizing id before with
  | nil => exact h
  | cons g rest ih =>
    cases g with
    | claimed s c es => exact ⟨h.1, ih id h.2⟩
    | free es => exact linked_claimJumps id es (linked_free.mpr (ih _ (linked_free.mp h)))

end Reconcile

/-- The edited entries of a list are cut into segments whose chained repeats go on from the values
before them. -/
theorem FieldList.linked_cut (t : Tolerance) (edited : List ListEntry) (l : FieldList) :
    Reconcile.Linked t none (l.cut t edited) :=
  Reconcile.linked_claimAllJumps l.nextId
    (Reconcile.linked_foldl _ (Reconcile.linked_free.mpr trivial))

end TransportDeck
