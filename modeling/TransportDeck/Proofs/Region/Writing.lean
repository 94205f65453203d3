import TransportDeck.Proofs.Region.Reading

/-!
# Writing regions

What a geometry keeps while a region is written into it: its entries keep their kinds, and its
strands stay strands.  Only the last entry of a strand is ever written, and only if its head was
claimed.

Writing a node gives a tree that describes the same region.  The tree takes up new places, and
places in the strands that were claimed on the way; so trees that were written one after the other
stand apart.
-/

namespace TransportDeck

/-! ## Shapes and nests -/

/-- The forms that entries have. -/
inductive GeometryEntry.IsShaped : GeometryEntry → Prop where
  | leaf {f : Field} (h : f.IsIdentifier) : IsShaped (.leaf f)
  | run (s : Shorthand) : IsShaped (.run s)
  | binary {op : GeometryOp} {l r : Nat} {mark : Layout} (h : op.isBinary = true) :
      IsShaped (.branch (.binary op l mark r))
  | complement {c : Nat} {mark : Layout} : IsShaped (.branch (.complement mark c))
  | group {c : Nat} {opening closing : Layout} : IsShaped (.branch (.group opening c closing))

namespace Geometry

variable {g g' : Geometry} {id t : Nat} {s : List Nat} {ss : List (List Nat)} {tree : GeometryTree}

/-- Changing an entry is seen at that entry only. -/
theorem entry?_modify (g : Geometry) (t i : Nat) (f : GeometryEntry → GeometryEntry) :
    Geometry.entry? (g.modify t f) i = if t = i then (g.entry? i).map f else g.entry? i :=
  Array.getElem?_modify

@[simp] theorem size_modify (g : Geometry) (t : Nat) (f : GeometryEntry → GeometryEntry) :
    (g.modify t f).size = g.size :=
  Array.size_modify

def IsShaped (g : Geometry) : Prop := ∀ i e, g.entry? i = some e → e.IsShaped

/-- An entry of a known form may be put behind the others. -/
theorem IsShaped.push (h : g.IsShaped) {e : GeometryEntry} (he : e.IsShaped) :
    (g.push e).IsShaped := by
  intro i e' hi
  rcases Nat.lt_trichotomy i g.size with hlt | rfl | hgt
  · rw [entry?_push_of_lt hlt] at hi
    exact h i e' hi
  · rw [entry?_push_size] at hi
    exact Option.some.inj hi ▸ he
  · have hlt : i < (g.push e).size := (Array.getElem?_eq_some_iff.mp hi).1
    rw [size_push] at hlt
    omega

/-- An entry may be changed to one of a known form. -/
theorem IsShaped.modify (h : g.IsShaped) {t : Nat} {f : GeometryEntry → GeometryEntry}
    (hf : ∀ e, g.entry? t = some e → (f e).IsShaped) : (g.modify t f).IsShaped := by
  intro i e hi
  rw [entry?_modify] at hi
  split_ifs at hi with ht
  · subst ht
    obtain ⟨e', he', rfl⟩ := Option.map_eq_some_iff.mp hi
    exact hf e' he'
  · exact h i e hi

/-- What was read as a tree has entries of known forms. -/
theorem Holds.isShaped {ids : List Nat} (h : g.Holds id tree ids) (hread : tree.IsRead) :
    ∀ i ∈ ids, ∀ e, g.entry? i = some e → e.IsShaped := by
  have found {i : Nat} {e : GeometryEntry} (entry : g.entry? i = some e) (he : e.IsShaped) :
      ∀ e', g.entry? i = some e' → e'.IsShaped := by
    intro e' he'
    exact Option.some.inj (entry.symm.trans he') ▸ he
  induction h with
  | leaf entry => simpa only [List.forall_mem_singleton] using found entry (.leaf hread.2)
  | run entry => simpa only [List.forall_mem_singleton] using found entry (.run _)
  | binary entry isBinary _ _ ihl ihr =>
    simp only [List.forall_mem_append, List.forall_mem_singleton]
    exact ⟨⟨ihl hread.1, ihr hread.2⟩, found entry (.binary isBinary)⟩
  | complement entry _ ih =>
    simp only [List.forall_mem_append, List.forall_mem_singleton]
    exact ⟨ih hread, found entry .complement⟩
  | group entry _ ih =>
    simp only [List.forall_mem_append, List.forall_mem_singleton]
    exact ⟨ih hread, found entry .group⟩

/-- Parentheses around parentheses down to an entry of another kind. -/
inductive Nests (g : Geometry) : List Nat → Prop where
  | last {id : Nat} {e : GeometryEntry} (entry : g.entry? id = some e)
      (noGroup : Region.isGroup g id = false) : Nests g [id]
  | group {id c : Nat} {opening closing : Layout} {s : List Nat}
      (entry : g.entry? id = some (.branch (.group opening c closing))) (below : Nests g (c :: s)) :
      Nests g (id :: c :: s)

/-- The strands of a tree are nests: parentheses around parentheses. -/
theorem Strands.nests (h : g.Strands id tree s ss) : ∀ u ∈ s :: ss, g.Nests u := by
  induction h with
  | leaf entry | run entry =>
    simp only [List.mem_singleton, forall_eq]
    exact .last entry (by simp [Region.isGroup, entry])
  | @binary id l r op mark left right s u ss us entry isBinary _ _ ihl ihr =>
    rw [List.forall_mem_cons, List.forall_mem_append]
    refine ⟨.last entry ?_, ihl, ihr⟩
    cases op with
    | intersection | union => simp [Region.isGroup, entry, Branch.binary]
    | complement | group => cases isBinary
  | complement entry _ ih =>
    rw [List.forall_mem_cons]
    exact ⟨.last entry (by simp [Region.isGroup, entry, Branch.complement]), ih⟩
  | @group id c opening closing inner s ss entry hc ih =>
    rw [List.forall_mem_cons] at ih ⊢
    obtain ⟨s', rfl⟩ := List.head?_eq_some_iff.mp hc.head?
    exact ⟨.group entry ih.1, ih.2⟩

namespace Nests

/-- A nest consists of entries that are there. -/
theorem exists_entry (h : g.Nests s) : ∀ i ∈ s, ∃ e, g.entry? i = some e := by
  induction h with
  | last entry _ => simpa using ⟨_, entry⟩
  | group entry _ ih =>
    rw [List.forall_mem_cons]
    exact ⟨⟨_, entry⟩, ih⟩

theorem lt_size (h : g.Nests s) : ∀ i ∈ s, i < g.size := by
  intro i hi
  obtain ⟨e, he⟩ := h.exists_entry i hi
  exact (Array.getElem?_eq_some_iff.mp he).1

/-- All but the last entry of a strand are parentheses; the last may be written anew. -/
theorem replace (h : g.Nests s) (hnodup : s.Nodup) (hlast : s.getLast? = some t)
    (hkept : ∀ i ∈ s, i ≠ t → g'.entry? i = g.entry? i) {e : GeometryEntry}
    (hentry : g'.entry? t = some e) (hgroup : Region.isGroup g' t = false) : g'.Nests s := by
  induction h with
  | @last id e' _ _ =>
    obtain rfl : id = t := by simpa using hlast
    exact .last hentry hgroup
  | @group id c opening closing s entry _ ih =>
    obtain ⟨hid, hs⟩ := List.nodup_cons.mp hnodup
    rw [List.getLast?_cons_cons] at hlast
    have hne : id ≠ t := (ne_of_mem_of_not_mem (List.mem_of_getLast? hlast) hid).symm
    refine .group ((hkept id (List.mem_cons_self ..) hne).trans entry) (ih hs hlast ?_)
    exact fun i hi ↦ hkept i (List.mem_cons_of_mem _ hi)

/-- A nest is not disturbed by changes elsewhere. -/
theorem congr (h : g.Nests s) (hkept : ∀ i ∈ s, g'.entry? i = g.entry? i) : g'.Nests s := by
  induction h with
  | @last id e entry noGroup =>
    have hid := hkept id (List.mem_singleton_self _)
    refine .last (hid.trans entry) ?_
    rwa [Region.isGroup, hid]
  | @group id c opening closing s entry _ ih =>
    exact .group ((hkept id (List.mem_cons_self ..)).trans entry)
      (ih fun i hi ↦ hkept i (List.mem_cons_of_mem _ hi))

/-- Peeling the parentheses off the head of a nest leads to its last entry. -/
theorem peel_eq (h : g.Nests s) (hhead : s.head? = some id) {fuel : Nat} (hfuel : s.length ≤ fuel) :
    s.getLast? = some (Region.peel g fuel id) := by
  induction h generalizing id fuel with
  | @last id' e entry noGroup =>
    obtain rfl : id' = id := by simpa using hhead
    have hpeel : Region.peel g fuel id' = id' := by
      cases fuel with
      | zero => rfl
      | succ n =>
        rw [Region.isGroup, entry] at noGroup
        rw [Region.peel, entry]
        cases e with
        | branch b =>
          simp only [decide_eq_false_iff_not] at noGroup
          exact if_neg noGroup
        | leaf | run => rfl
    rw [hpeel]
    rfl
  | @group id' c opening closing s entry _ ih =>
    obtain rfl : id' = id := by simpa using hhead
    obtain ⟨n, rfl⟩ : ∃ n, fuel = n + 1 :=
      ⟨fuel - 1, by simp only [List.length_cons] at hfuel; omega⟩
    have hpeel : Region.peel g (n + 1) id' = Region.peel g n c := by
      rw [Region.peel, entry]
      rfl
    rw [List.getLast?_cons_cons, hpeel]
    exact ih rfl (by simpa using hfuel)

/-- Parentheses around a tree describe the same region. -/
theorem holds (h : g.Nests s) (hhead : s.head? = some id) (hlast : s.getLast? = some t)
    {js : List Nat} (ht : g.Holds t tree (js ++ [t])) :
    ∃ tree', g.Holds id tree' (js ++ s.reverse) ∧
      tree'.region? = tree.region? ∧ (s = [id] → tree' = tree) := by
  induction h generalizing id with
  | @last id' e entry noGroup =>
    obtain rfl : id' = id := by simpa using hhead
    obtain rfl : id' = t := by simpa using hlast
    exact ⟨tree, by simpa using ht, rfl, fun _ ↦ rfl⟩
  | @group id' c opening closing s entry _ ih =>
    obtain rfl : id' = id := by simpa using hhead
    rw [List.getLast?_cons_cons] at hlast
    obtain ⟨tree', htree', hregion, -⟩ := ih rfl hlast
    refine ⟨.group opening tree' closing, ?_, hregion, by simp⟩
    rw [List.reverse_cons, ← List.append_assoc]
    exact .group entry htree'

end Nests

/-! ## Claimed strands -/

/-- The entry lies in a strand of which the head is among those. -/
def Covers (ss : List (List Nat)) (heads : List Nat) (i : Nat) : Prop :=
  ∃ o ∈ heads, ∃ s ∈ ss, s.head? = some o ∧ i ∈ s

/-- Strands have no entries in common. -/
theorem strand_unique (hss : ss.flatten.Nodup) {s u : List Nat} {i : Nat} (hs : s ∈ ss)
    (hu : u ∈ ss) (his : i ∈ s) (hiu : i ∈ u) : s = u := by
  by_contra hne
  have : Std.Symm (List.Disjoint : List Nat → List Nat → Prop) := ⟨fun _ _ h ↦ h.symm⟩
  exact (List.nodup_flatten.mp hss).2.forall hs hu hne his hiu

theorem Covers.mono {new more : List Nat} {i : Nat} (h : Covers ss new i) (hsub : new ⊆ more) :
    Covers ss more i := by
  obtain ⟨o, ho, hs⟩ := h
  exact ⟨o, hsub ho, hs⟩

/-- What is covered lies in one of the strands. -/
theorem Covers.mem_flatten {new : List Nat} {i : Nat} (h : Covers ss new i) : i ∈ ss.flatten := by
  obtain ⟨-, -, s, hs, -, hi⟩ := h
  exact List.mem_flatten.mpr ⟨s, hs, hi⟩

/-- Strands of other heads have other entries. -/
theorem Covers.not_covers (hss : ss.flatten.Nodup) {new more : List Nat} {i : Nat}
    (h : Covers ss new i) (hapart : ∀ o ∈ more, o ∉ new) : ¬ Covers ss more i := by
  rintro ⟨o, ho, s, hs, hhead, hi⟩
  obtain ⟨o', ho', u, hu, hhead', hi'⟩ := h
  obtain rfl := strand_unique hss hs hu hi hi'
  obtain rfl := Option.some.inj (hhead.symm.trans hhead')
  exact hapart o ho ho'

end Geometry

/-! ## Steps -/

namespace Region.Draft

open TransportDeck.Geometry

variable {ss : List (List Nat)} {new more : List Nat} {d d' d'' : Draft} {i : Nat}

/-- The strands of the geometry are strands still. -/
structure Ready (ss : List (List Nat)) (d : Draft) : Prop where
  apart : ss.flatten.Nodup
  nests : ∀ s ∈ ss, d.geometry.Nests s
  shaped : d.geometry.IsShaped

/-- The strands of a geometry lie inside it, also while it is being written. -/
theorem Ready.lt_size (h : d.Ready ss) (hi : i ∈ ss.flatten) : i < d.geometry.size := by
  obtain ⟨s, hs, hi⟩ := List.mem_flatten.mp hi
  exact (h.nests s hs).lt_size i hi

/-- The heads were claimed on the way from one draft to another, and apart from their strands the
entries stayed as they were. -/
structure Spends (ss : List (List Nat)) (new : List Nat) (d d' : Draft) : Prop where
  ready : d'.Ready ss
  size_le : d.geometry.size ≤ d'.geometry.size
  claimed_eq : d'.claimed = new ++ d.claimed
  unclaimed : ∀ o ∈ new, o ∉ d.claimed
  frame : ∀ i < d.geometry.size, ¬ Covers ss new i → d'.geometry.entry? i = d.geometry.entry? i

namespace Spends

theorem refl (h : d.Ready ss) : Spends ss [] d d :=
  ⟨h, le_rfl, rfl, by simp, fun _ _ _ ↦ rfl⟩

theorem trans (h : Spends ss new d d') (h' : Spends ss more d' d'') :
    Spends ss (more ++ new) d d'' where
  ready := h'.ready
  size_le := h.size_le.trans h'.size_le
  claimed_eq := by rw [h'.claimed_eq, h.claimed_eq, List.append_assoc]
  unclaimed := by
    intro o ho hmem
    rcases List.mem_append.mp ho with ho | ho
    · refine h'.unclaimed o ho ?_
      rw [h.claimed_eq]
      exact List.mem_append_right _ hmem
    · exact h.unclaimed o ho hmem
  frame := by
    intro i hi hcovers
    have hmore : ¬ Covers ss more i := fun hc ↦ hcovers (hc.mono (List.subset_append_left ..))
    have hnew : ¬ Covers ss new i := fun hc ↦ hcovers (hc.mono (List.subset_append_right ..))
    rw [h'.frame i (Nat.lt_of_lt_of_le hi h.size_le) hmore, h.frame i hi hnew]

/-- A new entry spends no strand. -/
theorem push (h : Spends ss new d d') {e : GeometryEntry} (he : e.IsShaped) :
    Spends ss new d (d'.push e).2 where
  ready := by
    refine ⟨h.ready.apart, fun s hs ↦ ?_, h.ready.shaped.push he⟩
    have hnests := h.ready.nests s hs
    exact hnests.congr fun i hi ↦ entry?_push_of_lt (hnests.lt_size i hi)
  size_le := by
    change d.geometry.size ≤ (d'.geometry.push e).size
    rw [size_push]
    exact Nat.le_succ_of_le h.size_le
  claimed_eq := h.claimed_eq
  unclaimed := h.unclaimed
  frame := fun i hi hcovers ↦
    (entry?_push_of_lt (Nat.lt_of_lt_of_le hi h.size_le)).trans (h.frame i hi hcovers)

/-- The last entry of a strand is written once its head is claimed. -/
theorem modify (h : Spends ss new d d') {s : List Nat} {o t : Nat} (hs : s ∈ ss)
    (hhead : s.head? = some o) (hlast : s.getLast? = some t) (ho : o ∈ new)
    {f : GeometryEntry → GeometryEntry} {e : GeometryEntry} (he : d'.geometry.entry? t = some e)
    (hf : (f e).IsShaped) (hgroup : isGroup (d'.geometry.modify t f) t = false) :
    Spends ss new d (d'.modify t f) where
  ready := by
    have hkept (i : Nat) (hi : i ≠ t) :
        Geometry.entry? (d'.geometry.modify t f) i = d'.geometry.entry? i := by
      rw [entry?_modify, if_neg hi.symm]
    refine ⟨h.ready.apart, fun u hu ↦ ?_, h.ready.shaped.modify ?_⟩
    · by_cases htu : t ∈ u
      · obtain rfl := strand_unique h.ready.apart hs hu (List.mem_of_getLast? hlast) htu
        refine (h.ready.nests s hs).replace ((List.nodup_flatten.mp h.ready.apart).1 s hs) hlast
          (fun i _ ↦ hkept i) (e := f e) ?_ hgroup
        change Geometry.entry? (d'.geometry.modify t f) t = _
        rw [entry?_modify, if_pos rfl, he]
        rfl
      · exact (h.ready.nests u hu).congr fun i hi ↦ hkept i (ne_of_mem_of_not_mem hi htu)
    · intro e' he'
      obtain rfl := Option.some.inj (he.symm.trans he')
      exact hf
  size_le := by
    change d.geometry.size ≤ (d'.geometry.modify t f).size
    rw [size_modify]
    exact h.size_le
  claimed_eq := h.claimed_eq
  unclaimed := h.unclaimed
  frame := by
    intro i hi hcovers
    have hne : t ≠ i := by
      rintro rfl
      exact hcovers ⟨o, ho, s, hs, hhead, List.mem_of_getLast? hlast⟩
    change Geometry.entry? (d'.geometry.modify t f) i = _
    rw [entry?_modify, if_neg hne, h.frame i hi hcovers]

end Spends

end Region.Draft

/-! ## Sides -/

namespace Side

/-- The number that a side is written as. -/
def written (s : Side) : Int := if s.positive then s.divider.natAbs else -s.divider.natAbs

/-- A surface is written with its number and sign. -/
theorem written_surface (n : Int) : (surface n).written = n := by
  unfold written surface
  simp only [decide_eq_true_eq]
  split_ifs <;> omega

/-- A cell has no sense, so it is written with its number alone. -/
theorem cell_written (n : Int) : cell (cell n).written = cell n := by
  simp [cell, written]

theorem signed_surface (n : Int) : (surface n).signed = n := by
  unfold signed surface
  simp only [decide_eq_true_eq]
  split_ifs <;> omega

end Side

/-- A leaf with the number of the side. -/
def GeometryEntry.Names (e : GeometryEntry) (s : Side) : Prop :=
  ∃ f : Field, e = .leaf f ∧ f.IsIdentifier ∧ f.toInt? = some s.written

namespace Region

/-- A new leaf has the number of its side. -/
theorem names_newLeaf (s : Side) : (newLeaf s).Names s := by
  refine ⟨_, rfl, ⟨rfl, rfl⟩, ?_⟩
  cases hp : s.positive <;>
    simp [Field.int, Field.new, Field.asSignedIdentifier, Field.splitSign, Field.setNegative,
      Field.toInt?, Field.signed, SignFlag.apart, Value.coerce, Value.magnitude, Value.negate,
      Value.toInt?, Side.written, hp]

/-- A leaf that is written anew gets the number of its side. -/
theorem names_setLeaf (s : Side) {f : Field} (hf : f.IsIdentifier) :
    (setLeaf s (.leaf f)).Names s := by
  refine ⟨_, rfl, ⟨hf.kind_eq, hf.apart⟩, ?_⟩
  cases hp : s.positive <;>
    simp [Field.setValue, Field.kept, Field.setNegative, Field.toInt?, Field.signed, hf.kind_eq,
      hf.apart, Value.coerce, Value.magnitude, Value.negate, Value.toInt?, Side.written, hp]

end Region

/-! ## Entries on top -/

namespace Geometry

variable {g : Geometry} {l r c : Nat} {left right tree : GeometryTree} {is js : List Nat}

/-- Wherever the entry is put, the trees that it stands on make up a tree with it. -/
def Tops (g : Geometry) (e : GeometryEntry) (tree : GeometryTree) (js : List Nat) : Prop :=
  ∀ (g' : Geometry) (p : Nat), g'.entry? p = some e → (∀ i ∈ js, g'.entry? i = g.entry? i) →
    g'.Holds p tree (js ++ [p])

/-- A leaf stands on nothing. -/
theorem Tops.leaf (g : Geometry) (f : Field) : g.Tops (.leaf f) (.leaf f) [] :=
  fun _ _ entry _ ↦ .leaf entry

/-- A binary branch on two trees makes up the tree of both. -/
theorem Tops.binary (hl : g.Holds l left is) (hr : g.Holds r right js) {op : GeometryOp}
    (hop : op.isBinary = true) (mark : Layout) :
    g.Tops (.branch (.binary op l mark r)) (.binary op left mark right) (is ++ js) := by
  intro g' p entry hkept
  rw [List.forall_mem_append] at hkept
  exact .binary entry hop (hl.congr hkept.1) (hr.congr hkept.2)

/-- A complement on a tree makes up the complement of that tree. -/
theorem Tops.complement (h : g.Holds c tree js) (mark : Layout) :
    g.Tops (.branch (.complement mark c)) (.complement mark tree) js :=
  fun _ _ entry hkept ↦ .complement entry (h.congr hkept)

/-- Parentheses on a tree make up that tree in parentheses. -/
theorem Tops.group (h : g.Holds c tree js) (opening closing : Layout) :
    g.Tops (.branch (.group opening c closing)) (.group opening tree closing) js :=
  fun _ _ entry hkept ↦ .group entry (h.congr hkept)

end Geometry

namespace Region

open TransportDeck.Geometry Draft

variable {ss : List (List Nat)} {new more heads : List Nat} {d d' : Draft} {w w' : Nat × Draft}
  {tree tree' : GeometryTree} {js is s : List Nat} {t : Target} {c : Bool} {e : GeometryEntry}

/-! ## Written trees -/

/-- The entry is new, or it is of a strand that was claimed. -/
def Owned (ss : List (List Nat)) (new : List Nat) (d : Draft) (i : Nat) : Prop :=
  Covers ss new i ∨ d.geometry.size ≤ i

/-- A draft, and the place in it where a tree was written. -/
structure Written (ss : List (List Nat)) (new : List Nat) (d : Draft) (w : Nat × Draft)
    (tree : GeometryTree) (js : List Nat) : Prop where
  spends : Spends ss new d w.2
  holds : w.2.geometry.Holds w.1 tree js
  nodup : js.Nodup
  owned : ∀ i ∈ js, Owned ss new d i

namespace Written

/-- What was written lies apart from strands that were claimed before. -/
theorem not_covers (h : Written ss new d w tree js) (hd : d.Ready ss) (hheads : heads ⊆ d.claimed) :
    ∀ i ∈ js, ¬ Covers ss heads i := by
  intro i hi hcovers
  rcases h.owned i hi with hnew | hge
  · exact hcovers.not_covers hd.apart (fun o ho hmem ↦ h.spends.unclaimed o ho (hheads hmem)) hnew
  · exact Nat.lt_irrefl _ (Nat.lt_of_lt_of_le (hd.lt_size hcovers.mem_flatten) hge)

/-- What was written stays while other strands are written. -/
theorem entry?_eq (h : Written ss new d w tree js) (hd : d.Ready ss) (h' : Spends ss more w.2 d') :
    ∀ i ∈ js, d'.geometry.entry? i = w.2.geometry.entry? i := by
  intro i hi
  refine h'.frame i (h.holds.lt_size i hi) fun hmore ↦ ?_
  rcases h.owned i hi with hnew | hge
  · refine hnew.not_covers hd.apart (fun o ho hmem ↦ h'.unclaimed o ho ?_) hmore
    rw [h.spends.claimed_eq]
    exact List.mem_append_left _ hmem
  · exact Nat.lt_irrefl _ (Nat.lt_of_lt_of_le (hd.lt_size hmore.mem_flatten) hge)

/-- Trees that are written one after the other have no entries in common. -/
theorem disjoint (h : Written ss new d w tree js) (hd : d.Ready ss)
    (h' : Written ss more w.2 w' tree' is) : ∀ i ∈ js, ∀ j ∈ is, i ≠ j := by
  rintro i hi _ hj rfl
  have hsub : new ⊆ w.2.claimed := by
    rw [h.spends.claimed_eq]
    exact List.subset_append_left ..
  have hnot : ¬ Covers ss new i := h'.not_covers h.spends.ready hsub i hj
  rcases h.owned i hi with hnew | hge
  · exact hnot hnew
  · rcases h'.owned i hj with hmore | hge'
    · exact Nat.lt_irrefl _ (Nat.lt_of_lt_of_le (hd.lt_size hmore.mem_flatten) hge)
    · exact Nat.lt_irrefl _ (Nat.lt_of_lt_of_le (h.holds.lt_size i hi) hge')

/-- A tree is written once its last entry is put on top of what it stands on. -/
theorem push (h : Spends ss new d d') (he : e.IsShaped) (htops : d'.geometry.Tops e tree js)
    (hjs : js.Nodup) (howned : ∀ i ∈ js, Owned ss new d i) (hlt : ∀ i ∈ js, i < d'.geometry.size) :
    Written ss new d (d'.push e) tree (js ++ [d'.geometry.size]) where
  spends := h.push he
  holds := htops _ _ (entry?_push_size ..) fun i hi ↦ entry?_push_of_lt (hlt i hi)
  nodup := by
    rw [List.nodup_append]
    refine ⟨hjs, List.nodup_singleton _, ?_⟩
    intro i hi j hj
    rw [List.mem_singleton.mp hj]
    exact Nat.ne_of_lt (hlt i hi)
  owned := by
    rw [List.forall_mem_append, List.forall_mem_singleton]
    exact ⟨howned, .inr h.size_le⟩

/-- A group is no leaf. -/
theorem leaf?_of_isGroup {g : Geometry} {id : Nat} (h : g.Holds id tree js)
    (hgroup : isGroup g id = true) : tree.leaf? = none := by
  cases h with
  | leaf entry => simp [isGroup, entry] at hgroup
  | run | binary | complement | group => rfl

/-- Parentheses are put around what was written, unless it has them; the region is the same. -/
theorem wrapUnlessGroup (h : Written ss new d w tree js) : ∃ tree' js',
    Written ss new d (w.2.wrapUnlessGroup w.1) tree' js' ∧ tree'.region? = tree.region? ∧
      tree'.leaf? = none := by
  unfold Draft.wrapUnlessGroup
  split_ifs with hgroup
  · exact ⟨tree, js, h, rfl, leaf?_of_isGroup h.holds hgroup⟩
  · exact ⟨.group _ tree _, _,
      push h.spends .group (.group h.holds _ _) h.nodup h.owned h.holds.lt_size, rfl, rfl⟩

/-- An operand is put into parentheses where its operator needs them; the region is the same. -/
theorem wrapOperand (h : Written ss new d w tree js) (r : Region) (op : RegionOp) (id : Nat) :
    ∃ tree' js', Written ss new d (r.wrapOperand op id w) tree' js' ∧
      tree'.region? = tree.region? := by
  unfold Region.wrapOperand
  split_ifs
  · obtain ⟨tree', js', hwritten, hregion, -⟩ := h.wrapUnlessGroup
    exact ⟨tree', js', hwritten, hregion⟩
  · exact ⟨tree, js, h, rfl⟩

end Written

/-! ## Targets -/

/-- The target is what stands at the end of a strand that was claimed.  A strand that the inside of
a cell comes from has no parentheses. -/
structure Target.IsClaimed (ss : List (List Nat)) (new : List Nat) (isCell : Bool) (t : Target)
    (s : List Nat) : Prop where
  mem : s ∈ ss
  head : s.head? = some t.origin
  last : s.getLast? = some t.place
  claimed : t.origin ∈ new
  bare : isCell = true → s = [t.origin]

namespace Target.IsClaimed

theorem mono (h : t.IsClaimed ss new c s) (hsub : new ⊆ more) : t.IsClaimed ss more c s :=
  ⟨h.mem, h.head, h.last, hsub h.claimed, h.bare⟩

/-- The strand of a claimed target is covered. -/
theorem covers (h : t.IsClaimed ss new c s) {i : Nat} (hi : i ∈ s) : Covers ss new i :=
  ⟨t.origin, h.claimed, s, h.mem, h.head, hi⟩

end Target.IsClaimed

/-- The origin of a node is claimed unless it was before. -/
theorem claim_spec (hd : d.Ready ss) {o : Option Nat} (ho : ∀ i ∈ o, Heads ss c i) :
    ∃ new origin d', d.claim o = (origin, d') ∧ Spends ss new d d' ∧
      ∀ t ∈ d'.target? origin, ∃ s, t.IsClaimed ss new c s := by
  have hnone : ∃ new origin d', ((none, d) : Option Nat × Draft) = (origin, d') ∧
      Spends ss new d d' ∧ ∀ t ∈ d'.target? origin, ∃ s, t.IsClaimed ss new c s :=
    ⟨[], none, d, rfl, .refl hd, by simp [Draft.target?]⟩
  cases o with
  | none => exact hnone
  | some o =>
    unfold Draft.claim
    dsimp only
    split_ifs with hfree
    swap
    · exact hnone
    obtain ⟨s, hs, hhead, hbare⟩ := ho o rfl
    simp only [Bool.and_eq_true, decide_eq_true_eq, Bool.not_eq_true', List.contains_eq_mem,
      decide_eq_false_iff_not] at hfree
    have hnests := hd.nests s hs
    have hlength : s.length ≤ d.geometry.size := by
      have hsub : s ⊆ List.range d.geometry.size := fun i hi ↦
        List.mem_range.mpr (hnests.lt_size i hi)
      simpa using (((List.nodup_flatten.mp hd.apart).1 s hs).subperm hsub).length_le
    refine ⟨[o], some o, _, rfl, ⟨⟨hd.apart, hd.nests, hd.shaped⟩, le_rfl, rfl, ?_, ?_⟩, ?_⟩
    · simpa using hfree.2
    · exact fun _ _ _ ↦ rfl
    · rintro t ⟨⟩
      exact ⟨s, hs, hhead, hnests.peel_eq hhead hlength, List.mem_singleton_self _, hbare⟩

namespace Written

/-- A tree at the end of a strand is a tree at its head. -/
theorem through (h : Spends ss new d d') (ht : t.IsClaimed ss new c s)
    (hholds : d'.geometry.Holds t.place tree (js ++ [t.place])) (hjs : js.Nodup)
    (howned : ∀ i ∈ js, Owned ss new d i) (hapart : ∀ i ∈ js, i ∉ s) :
    ∃ tree' js', Written ss new d (t.origin, d') tree' js' ∧ tree'.region? = tree.region? ∧
      (c = true → tree' = tree) := by
  obtain ⟨tree', hholds', hregion, hbare⟩ := (h.ready.nests s ht.mem).holds ht.head ht.last hholds
  refine ⟨tree', js ++ s.reverse, ⟨h, hholds', ?_, ?_⟩, hregion, fun hc ↦ hbare (ht.bare hc)⟩
  · rw [List.nodup_append]
    refine ⟨hjs, List.nodup_reverse.mpr ((List.nodup_flatten.mp h.ready.apart).1 s ht.mem), ?_⟩
    rintro i hi _ hj rfl
    exact hapart i hi (List.mem_reverse.mp hj)
  · rw [List.forall_mem_append]
    exact ⟨howned, fun i hi ↦ .inl (ht.covers (List.mem_reverse.mp hi))⟩

end Written

/-- The entry was put behind the others, or what stood at a target was made into it. -/
inductive Placed (ss : List (List Nat)) (new : List Nat) (isCell : Bool) (d : Draft)
    (js : List Nat) : GeometryEntry → Nat × Draft → Prop where
  | fresh (e : GeometryEntry) : Placed ss new isCell d js e (d.push e)
  | reused {t : Target} {s : List Nat} {f : GeometryEntry → GeometryEntry} {e : GeometryEntry}
      (target : t.IsClaimed ss new isCell s) (apart : ∀ i ∈ js, i ∉ s)
      (entry : d.geometry.entry? t.place = some e) :
      Placed ss new isCell d js (f e) (t.origin, d.modify t.place f)

/-- An entry that was placed on trees makes up a tree with them. -/
theorem Placed.written (h : Placed ss new c d' js e w) (hspends : Spends ss new d d')
    (he : e.IsShaped) (hgroup : ∀ l i l', e ≠ .branch (.group l i l'))
    (htops : d'.geometry.Tops e tree js) (hjs : js.Nodup) (howned : ∀ i ∈ js, Owned ss new d i)
    (hlt : ∀ i ∈ js, i < d'.geometry.size) :
    ∃ tree' js', Written ss new d w tree' js' ∧ tree'.region? = tree.region? ∧
      (c = true → tree' = tree) := by
  cases h with
  | fresh => exact ⟨tree, _, .push hspends he htops hjs howned hlt, rfl, fun _ ↦ rfl⟩
  | @reused t s f e₀ target apart entry =>
    have hplace : Geometry.entry? (d'.geometry.modify t.place f) t.place = some (f e₀) := by
      rw [entry?_modify, if_pos rfl, entry]
      rfl
    have hnot : isGroup (d'.geometry.modify t.place f) t.place = false := by
      rw [isGroup, hplace]
      generalize f e₀ = e at he hgroup
      cases he with
      | leaf | run | complement => rfl
      | @binary op l r mark hop =>
        cases op with
        | intersection | union => rfl
        | complement | group => cases hop
      | @group i l l' => exact absurd rfl (hgroup l i l')
    have hmodify := hspends.modify target.mem target.head target.last target.claimed entry he hnot
    refine Written.through hmodify target (htops _ _ hplace fun i hi ↦ ?_) hjs howned apart
    have hne : t.place ≠ i := by
      rintro rfl
      exact apart _ hi (List.mem_of_getLast? target.last)
    change Geometry.entry? (d'.geometry.modify t.place f) i = _
    rw [entry?_modify, if_neg hne]

variable {t? : Option Target}

/-- A side is written at its target, or as a new leaf. -/
theorem placed_writeSide (s : Side) (hd : d.Ready ss)
    (ht : ∀ t ∈ t?, ∃ u, t.IsClaimed ss new c u) :
    ∃ e, Placed ss new c d [] e (writeSide s t? d) ∧ e.Names s := by
  unfold writeSide
  split
  · next t f hentry =>
    obtain ⟨u, hu⟩ := ht t rfl
    have hf : f.IsIdentifier := by
      have hshaped := hd.shaped _ _ hentry
      cases hshaped with
      | leaf hf => exact hf
    exact ⟨_, .reused hu (by simp) hentry, names_setLeaf s hf⟩
  · exact ⟨_, .fresh _, names_newLeaf s⟩

/-- A complement is written at its target, or as a new branch, on the operand that is there. -/
theorem placed_writeComplement (operand : Nat) (hd : d.Ready ss)
    (ht : ∀ t ∈ t?, ∃ u, t.IsClaimed ss new c u ∧ ∀ i ∈ js, i ∉ u) :
    ∃ mark, Placed ss new c d js (.branch (.complement mark operand))
      (writeComplement operand t? d) := by
  unfold writeComplement
  split
  · next t b hentry =>
    split_ifs with hop
    · obtain ⟨u, hu, hapart⟩ := ht t rfl
      have hset : ∃ mark, setOperand operand (.branch b) = .branch (.complement mark operand) := by
        have hshaped := hd.shaped _ _ hentry
        cases hshaped with
        | @binary op l r mark hop' =>
          rw [show op = .complement from hop] at hop'
          cases hop'
        | @complement c mark => exact ⟨mark, rfl⟩
        | group => cases hop
      obtain ⟨mark, hset⟩ := hset
      exact ⟨mark, hset ▸ .reused hu hapart hentry⟩
    · exact ⟨_, .fresh _⟩
  · exact ⟨_, .fresh _⟩

/-- A union or an intersection is written at its target, or as a new branch, on the operands that
are there. -/
theorem placed_writeBinary (op : RegionOp) (left right : Nat) (hd : d.Ready ss)
    (ht : ∀ t ∈ t?, ∃ u, t.IsClaimed ss new c u ∧ ∀ i ∈ js, i ∉ u) :
    ∃ mark, Placed ss new c d js
      (.branch (.binary (if op = .or then .union else .intersection) left mark right))
      (writeBinary op left right t? d) := by
  unfold writeBinary
  obtain ⟨mark₀, hfresh⟩ : ∃ mark, freshBinary op left right =
      .branch (.binary (if op = .or then .union else .intersection) left mark right) := by
    cases op <;> exact ⟨_, rfl⟩
  have hbinary : (if op = .or then GeometryOp.union else .intersection).isBinary = true := by
    split_ifs <;> rfl
  rw [hfresh]
  generalize (if op = .or then GeometryOp.union else .intersection) = written at hbinary ⊢
  dsimp only
  split
  · next t b hentry =>
    split_ifs with hop
    · obtain ⟨u, hu, hapart⟩ := ht t rfl
      have hset : ∃ mark, setOperands written left right (.branch b) =
          .branch (.binary written left mark right) := by
        have hshaped := hd.shaped _ _ hentry
        cases hshaped with
        | @binary op' l r mark hop' =>
          cases op' with
          | complement | group => cases hop'
          | intersection | union =>
            cases written with
            | complement | group => cases hbinary
            | intersection | union => exact ⟨_, rfl⟩
        | complement | group => cases hop
      obtain ⟨mark, hset⟩ := hset
      exact ⟨mark, hset ▸ .reused hu hapart hentry⟩
    · exact ⟨mark₀, .fresh _⟩
  · exact ⟨mark₀, .fresh _⟩

end Region

end TransportDeck
