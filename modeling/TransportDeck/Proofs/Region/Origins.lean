import TransportDeck.Proofs.Region.RoundTrip

/-!
# Origins

Entries keep their kinds, and parentheses their contents, while regions are written.  So a region
that was kept meanwhile goes on naming entries: from each of its origins parentheses lead down to an
entry. It can be written as long as different origins lead to different entries.
-/

namespace TransportDeck

/-! ## Strands -/

namespace Geometry

variable {g g' : Geometry} {s u : List Nat} {ss : List (List Nat)} {i o : Nat} {c : Bool}

namespace Nests

/-- A strand is determined by its head. -/
theorem unique (h : g.Nests s) (h' : g.Nests u) (hhead : s.head? = u.head?) : s = u := by
  induction h generalizing u with
  | @last id e entry noGroup =>
    cases h' with
    | last => simpa using hhead
    | @group id' c opening closing u entry' _ =>
      obtain rfl : id = id' := by simpa using hhead
      simp [Region.isGroup, entry', Branch.group] at noGroup
  | @group id c opening closing s entry _ ih =>
    cases h' with
    | @last id' e entry' noGroup =>
      obtain rfl : id = id' := by simpa using hhead
      simp [Region.isGroup, entry, Branch.group] at noGroup
    | @group id' c' opening' closing' u entry' below =>
      obtain rfl : id = id' := by simpa using hhead
      obtain rfl : c = c' := by
        rw [entry] at entry'
        injection entry' with hentry
        injection hentry with hbranch
        injection hbranch
      rw [ih below rfl]

/-- From an entry on, a strand is a strand again. -/
theorem exists_suffix (h : g.Nests s) (hi : i ∈ s) : ∃ above below, s = above ++ i :: below ∧
    g.Nests (i :: below) := by
  induction h with
  | @last id e entry noGroup =>
    obtain rfl := List.mem_singleton.mp hi
    exact ⟨[], [], rfl, .last entry noGroup⟩
  | @group id c opening closing s entry below ih =>
    rcases List.mem_cons.mp hi with rfl | hi
    · exact ⟨[], c :: s, rfl, .group entry below⟩
    · obtain ⟨above, rest, heq, hrest⟩ := ih hi
      exact ⟨id :: above, rest, by rw [heq, List.cons_append], hrest⟩

/-- Parentheses never stand inside of themselves. -/
theorem nodup (h : g.Nests s) : s.Nodup := by
  induction h with
  | last => exact List.nodup_singleton _
  | @group id c opening closing s entry below ih =>
    refine List.nodup_cons.mpr ⟨fun hi ↦ ?_, ih⟩
    obtain ⟨above, rest, heq, hrest⟩ := below.exists_suffix hi
    have hsame := hrest.unique (.group entry below) rfl
    have hlength := congrArg List.length heq
    rw [List.cons.injEq] at hsame
    rw [List.length_append, List.length_cons, List.length_cons, hsame.2,
      List.length_cons] at hlength
    omega

theorem length_le (h : g.Nests s) : s.length ≤ g.size := by
  have hsub : s ⊆ List.range g.size := fun i hi ↦ List.mem_range.mpr (h.lt_size i hi)
  simpa using (h.nodup.subperm hsub).length_le

theorem getLast? (h : g.Nests s) (hhead : s.head? = some o) :
    s.getLast? = some (Region.peel g g.size o) :=
  h.peel_eq hhead h.length_le

/-- Strands that meet end alike. -/
theorem peel_eq_of_mem (h : g.Nests s) (h' : g.Nests u) {o p : Nat} (hs : s.head? = some o)
    (hu : u.head? = some p) (hi : i ∈ s) (hi' : i ∈ u) :
    Region.peel g g.size o = Region.peel g g.size p := by
  obtain ⟨above, below, rfl, hbelow⟩ := h.exists_suffix hi
  obtain ⟨above', below', rfl, hbelow'⟩ := h'.exists_suffix hi'
  obtain rfl : below = below' := List.tail_eq_of_cons_eq (hbelow.unique hbelow' rfl)
  have hlast := h.getLast? hs
  have hlast' := h'.getLast? hu
  rw [List.getLast?_append_cons] at hlast hlast'
  exact Option.some.inj (hlast.symm.trans hlast')

/-- In two geometries that share a strand, its entries have the same kinds and contents. -/
theorem entry_cases (h : g.Nests s) (h' : g'.Nests s) (hi : i ∈ s) :
    (Region.isGroup g i = false ∧ Region.isGroup g' i = false) ∨
      ∃ c opening closing opening' closing',
        g.entry? i = some (.branch (.group opening c closing)) ∧
          g'.entry? i = some (.branch (.group opening' c closing')) := by
  induction h with
  | @last id e entry noGroup =>
    obtain rfl := List.mem_singleton.mp hi
    cases h' with
    | last _ noGroup' => exact .inl ⟨noGroup, noGroup'⟩
  | @group id c opening closing s entry _ ih =>
    cases h' with
    | @group _ _ opening' closing' _ entry' below' =>
      rcases List.mem_cons.mp hi with rfl | hi
      · exact .inr ⟨c, opening, closing, opening', closing', entry, entry'⟩
      · exact ih below' hi

end Nests

/-- From the entry parentheses lead down to one of another kind; from the inside of a cell there are
none. -/
def Leads (g : Geometry) (isCell : Bool) (o : Nat) : Prop :=
  ∃ s, g.Nests s ∧ s.head? = some o ∧ (isCell = true → s = [o])

theorem Heads.leads (h : Heads ss c o) (hss : ∀ s ∈ ss, g.Nests s) : g.Leads c o := by
  obtain ⟨s, hs, hhead, hcell⟩ := h
  exact ⟨s, hss s hs, hhead, hcell⟩

end Geometry

namespace Region

open TransportDeck.Geometry Draft

variable {g : Geometry} {ss : List (List Nat)} {new s : List Nat} {d d' : Draft} {c : Bool}
  {o : Nat} {r : Region} {x : RegionTree}

/-! ## Writing -/

/-- Strands stay strands while others are written, also where they meet. -/
theorem Draft.Spends.nests (h : Spends ss new d d') (hd : d.Ready ss) (hs : d.geometry.Nests s) :
    d'.geometry.Nests s := by
  -- An entry that may have changed is one of a strand that both geometries have.
  have kept {i : Nat} (hi : i < d.geometry.size) :
      d'.geometry.entry? i = d.geometry.entry? i ∨ ∃ u ∈ ss, i ∈ u := by
    by_cases hcovers : Covers ss new i
    · obtain ⟨-, -, u, hu, -, hiu⟩ := hcovers
      exact .inr ⟨u, hu, hiu⟩
    · exact .inl (h.frame i hi hcovers)
  induction hs with
  | @last id e entry noGroup =>
    rcases kept (Array.getElem?_eq_some_iff.mp entry).1 with heq | ⟨u, hu, hid⟩
    · refine .last (heq.trans entry) ?_
      rwa [isGroup, heq]
    · have hnests := h.ready.nests u hu
      obtain ⟨e', he'⟩ := hnests.exists_entry id hid
      rcases (hd.nests u hu).entry_cases hnests hid with ⟨-, hnot⟩ | ⟨c, _, _, _, _, entry', -⟩
      · exact .last he' hnot
      · simp [isGroup, entry', Branch.group] at noGroup
  | @group id c opening closing s entry below ih =>
    rcases kept (Array.getElem?_eq_some_iff.mp entry).1 with heq | ⟨u, hu, hid⟩
    · exact .group (heq.trans entry) ih
    · rcases (hd.nests u hu).entry_cases (h.ready.nests u hu) hid with
        ⟨hnot, -⟩ | ⟨c', _, _, opening', closing', entry', entry''⟩
      · simp [isGroup, entry, Branch.group] at hnot
      · obtain rfl : c = c' := by
          rw [entry] at entry'
          injection entry' with hentry
          injection hentry with hbranch
          injection hbranch
        exact .group entry'' ih

theorem Draft.Spends.leads (h : Spends ss new d d') (hd : d.Ready ss) (ho : d.geometry.Leads c o) :
    d'.geometry.Leads c o := by
  obtain ⟨s, hs, hhead, hcell⟩ := ho
  exact ⟨s, h.nests hd hs, hhead, hcell⟩

/-- Entries that could be named before a region was written can be named still. -/
theorem Linked.leads_writeInto (h : r.Linked (Heads ss) x) (hg : (⟨g, []⟩ : Draft).Ready ss)
    (ho : g.Leads c o) : (r.writeInto g).Leads c o := by
  obtain ⟨ids, hspans, hnodup⟩ := h.isTree
  obtain ⟨new, tree, js, hwritten, -⟩ :=
    hspans.emit h.origins (hspans.depth_le_size hnodup) hg
  obtain ⟨s, hs, hhead, hcell⟩ := hwritten.spends.leads hg ho
  exact ⟨s, hs.congr fun _ _ ↦ rfl, hhead, hcell⟩

/-! ## Regions -/

/-- The entries that nodes of the region come from. -/
def origins (r : Region) : List Nat := r.nodes.toList.filterMap RegionNode.origin

theorem mem_origins {n : RegionNode} (hn : n ∈ r.nodes) (ho : o ∈ n.origin) : o ∈ r.origins :=
  List.mem_filterMap.mpr ⟨n, Array.mem_toList_iff.mpr hn, ho⟩

/-- Different origins lead through parentheses to different entries. -/
def IsApart (r : Region) (g : Geometry) : Prop :=
  ∀ o ∈ r.origins, ∀ p ∈ r.origins, peel g g.size o = peel g g.size p → o = p

instance (r : Region) (g : Geometry) : Decidable (r.IsApart g) :=
  inferInstanceAs (Decidable (∀ o ∈ r.origins, ∀ p ∈ r.origins, _ → o = p))

/-- Origins that lead to different entries are heads of strands that do not meet. -/
theorem Linked.exists_heads (h : r.Linked g.Leads x) (hshaped : g.IsShaped) (hapart : r.IsApart g) :
    ∃ ss, (⟨g, []⟩ : Draft).Ready ss ∧ r.Linked (Heads ss) x := by
  have hstrand (o : Nat) : ∃ s, o ∈ r.origins → g.Nests s ∧ s.head? = some o := by
    by_cases ho : o ∈ r.origins
    · obtain ⟨n, hn, hno⟩ := List.mem_filterMap.mp ho
      obtain ⟨s, hs, hhead, -⟩ := h.origins n (Array.mem_toList_iff.mp hn) o hno
      exact ⟨s, fun _ ↦ ⟨hs, hhead⟩⟩
    · exact ⟨[], fun hmem ↦ absurd hmem ho⟩
  choose strand hstrand using hstrand
  have hnests : ∀ s ∈ r.origins.dedup.map strand, g.Nests s := by
    intro s hs
    obtain ⟨o, ho, rfl⟩ := List.mem_map.mp hs
    exact (hstrand o (List.mem_dedup.mp ho)).1
  refine ⟨r.origins.dedup.map strand, ⟨?_, hnests, hshaped⟩, h.isTree, ?_⟩
  · refine List.nodup_flatten.mpr ⟨fun s hs ↦ (hnests s hs).nodup, ?_⟩
    rw [List.pairwise_map]
    refine (List.nodup_dedup r.origins).imp_of_mem fun {o p} ho hp hne i hi hi' ↦ hne ?_
    rw [List.mem_dedup] at ho hp
    obtain ⟨hs, hhead⟩ := hstrand o ho
    obtain ⟨hu, hhead'⟩ := hstrand p hp
    exact hapart o ho p hp (hs.peel_eq_of_mem hu hhead hhead' hi hi')
  · intro n hn o ho
    have hmem := mem_origins hn ho
    obtain ⟨hs, hhead⟩ := hstrand o hmem
    obtain ⟨s, hs', hhead', hcell⟩ := h.origins n hn o ho
    obtain rfl := hs.unique hs' (hhead.trans hhead'.symm)
    exact ⟨strand o, List.mem_map.mpr ⟨o, List.mem_dedup.mpr hmem, rfl⟩, hhead, hcell⟩

/-- Heads of strands that do not meet lead to different entries. -/
theorem Linked.isApart (h : r.Linked (Heads ss) x) (hg : (⟨g, []⟩ : Draft).Ready ss) :
    r.IsApart g := by
  have head {o : Nat} (ho : o ∈ r.origins) : ∃ s ∈ ss, s.head? = some o := by
    obtain ⟨n, hn, hno⟩ := List.mem_filterMap.mp ho
    obtain ⟨s, hs, hhead, -⟩ := h.origins n (Array.mem_toList_iff.mp hn) o hno
    exact ⟨s, hs, hhead⟩
  intro o ho p hp heq
  obtain ⟨s, hs, hhead⟩ := head ho
  obtain ⟨u, hu, hhead'⟩ := head hp
  have hlast := (hg.nests s hs).getLast? hhead
  have hlast' := (hg.nests u hu).getLast? hhead'
  change s.getLast? = some (peel g g.size o) at hlast
  rw [heq] at hlast
  obtain rfl := strand_unique hg.apart hs hu (List.mem_of_getLast? hlast)
    (List.mem_of_getLast? hlast')
  exact Option.some.inj (hhead.symm.trans hhead')

end Region

end TransportDeck
