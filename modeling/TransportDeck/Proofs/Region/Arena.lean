import TransportDeck.Proofs.Region.Comparing
import TransportDeck.Proofs.Region.Operations

/-!
# The arena of a region

The nodes of an arena name their operands by place, so nothing but the operations keeps a place from
being out of range, shared or its own operand.  In every region that is made from sides of surfaces
and from geometries the nodes form a tree below the root: along its edges places come later in the
walk, and the operands of all nodes are the places of the walk but for the first.
-/

namespace TransportDeck.Region

variable {nodes : Array RegionNode} {id i j k : Nat} {x : RegionTree} {ids : List Nat} {r : Region}

/-- The node at the first place names the second one as an operand. -/
def Child (r : Region) (i j : Nat) : Prop := ∃ n, r.node? i = some n ∧ j ∈ n.children

/-- Below the root all nodes of the arena form a tree.  Operators have as many operands as they
take, and the inside of a cell stands right below a complement. -/
structure IsArena (r : Region) : Prop where
  root_lt : r.root < r.size
  child_lt : ∀ i j, r.Child i j → j < r.size
  reaches : ∀ i < r.size, Relation.ReflTransGen r.Child r.root i
  acyclic : ∀ i, ¬ Relation.TransGen r.Child i i
  parent_unique : ∀ i j k, r.Child i k → r.Child j k → i = j
  children_nodup : ∀ i n, r.node? i = some n → n.children.Nodup
  arity : ∀ i op l right o, r.node? i = some (.branch op l right o) →
    (right = none ↔ op = .complement)
  cell : ∀ i s o, r.node? i = some (.unit s o) → s.isCell = true →
    ∃ p o', r.node? p = some (.branch .complement i none o')

/-- The operands of the node at a place. -/
def childrenAt (nodes : Array RegionNode) (i : Nat) : List Nat :=
  (nodes[i]?.map RegionNode.children).getD []

theorem child_iff : r.Child i j ↔ j ∈ childrenAt r.nodes i := by
  unfold Child childrenAt node?
  cases r.nodes[i]? <;> simp

namespace Spans

theorem eq_cons_tail (h : Spans nodes id x ids) : ids = id :: ids.tail := by
  cases h <;> rfl

/-- The operands of the nodes are the places of the tree but for the first. -/
theorem perm_children (h : Spans nodes id x ids) :
    (ids.flatMap (childrenAt nodes)).Perm ids.tail := by
  induction h with
  | unit node => simp [childrenAt, node, RegionNode.children]
  | @join id l rt op o left right is js node _ hl hr ihl ihr =>
    have hchildren : childrenAt nodes id = [l, rt] := by
      simp [childrenAt, node, RegionNode.children]
    rw [List.flatMap_cons, List.flatMap_append, List.tail_cons, hchildren]
    have hwalk : is ++ js = l :: (is.tail ++ rt :: js.tail) := by
      rw [← hr.eq_cons_tail, ← List.cons_append, ← hl.eq_cons_tail]
    rw [hwalk]
    have hmiddle : (rt :: (is.tail ++ js.tail)).Perm (is.tail ++ rt :: js.tail) :=
      List.perm_middle.symm
    exact ((ihl.append ihr).append_left [l, rt]).trans (hmiddle.cons l)
  | @complement id c o operand is node hc ih =>
    have hchildren : childrenAt nodes id = [c] := by simp [childrenAt, node, RegionNode.children]
    rw [List.flatMap_cons, List.tail_cons, hchildren]
    refine (ih.append_left [c]).trans ?_
    rw [hc.eq_cons_tail]
    exact .refl _

/-- An operand comes later in the walk than the node that names it. -/
theorem sublist_of_mem_children (h : Spans nodes id x ids) (hi : i ∈ ids)
    (hj : j ∈ childrenAt nodes i) : [i, j].Sublist ids := by
  induction h with
  | unit node =>
    obtain rfl := List.mem_singleton.mp hi
    simp [childrenAt, node, RegionNode.children] at hj
  | @join id l rt op o left right is js node _ hl hr ihl ihr =>
    rcases List.mem_cons.mp hi with rfl | hi
    · have hmem : j = l ∨ j = rt := by
        simpa [childrenAt, node, RegionNode.children] using hj
      refine (List.singleton_sublist.mpr (List.mem_append.mpr ?_)).cons_cons i
      rcases hmem with rfl | rfl
      · exact .inl hl.mem
      · exact .inr hr.mem
    · rcases List.mem_append.mp hi with hi | hi
      · exact ((ihl hi).trans (List.sublist_append_left is js)).cons id
      · exact ((ihr hi).trans (List.sublist_append_right is js)).cons id
  | @complement id c o operand is node hc ih =>
    rcases List.mem_cons.mp hi with rfl | hi
    · obtain rfl : j = c := by simpa [childrenAt, node, RegionNode.children] using hj
      exact (List.singleton_sublist.mpr hc.mem).cons_cons i
    · exact (ih hi).cons id

theorem reaches (h : Spans r.nodes id x ids) : ∀ i ∈ ids, Relation.ReflTransGen r.Child id i := by
  induction h with
  | unit => exact List.forall_mem_singleton.mpr .refl
  | @join id l rt op o left right is js node _ _ _ ihl ihr =>
    have hl : r.Child id l := ⟨_, node, List.mem_cons_self ..⟩
    have hr : r.Child id rt := ⟨_, node, List.mem_cons_of_mem _ (List.mem_singleton_self _)⟩
    rw [List.forall_mem_cons, List.forall_mem_append]
    exact ⟨.refl, fun i hi ↦ .head hl (ihl i hi), fun i hi ↦ .head hr (ihr i hi)⟩
  | @complement id c o operand is node _ ih =>
    have hc : r.Child id c := ⟨_, node, List.mem_cons_self ..⟩
    rw [List.forall_mem_cons]
    exact ⟨.refl, fun i hi ↦ .head hc (ih i hi)⟩

theorem arity (h : Spans nodes id x ids) : ∀ i ∈ ids, ∀ op l right o,
    nodes[i]? = some (.branch op l right o) → (right = none ↔ op = .complement) := by
  induction h with
  | unit node =>
    rw [List.forall_mem_singleton, node]
    rintro _ _ _ _ ⟨⟩
  | join node isJoin _ _ ihl ihr =>
    rw [List.forall_mem_cons, List.forall_mem_append]
    refine ⟨?_, ihl, ihr⟩
    rw [node]
    rintro _ _ _ _ ⟨⟩
    exact iff_of_false (Option.some_ne_none _) isJoin
  | complement node _ ih =>
    rw [List.forall_mem_cons]
    refine ⟨?_, ih⟩
    rw [node]
    rintro _ _ _ _ ⟨⟩
    exact iff_of_true rfl rfl

/-- In a proper tree the inside of a cell stands right below a complement. -/
theorem exists_complement (h : Spans nodes id x ids) : x.IsProper → ∀ i ∈ ids, ∀ (s : Side) o,
    nodes[i]? = some (RegionNode.unit s o) → s.isCell = true →
      ∃ (p : Nat) (o' : Option Nat), nodes[p]? =
      some (RegionNode.branch .complement i none o') := by
  induction h with
  | unit node =>
    rintro ⟨n, rfl⟩
    rw [List.forall_mem_singleton, node]
    rintro _ _ ⟨⟩ ⟨⟩
  | join node _ _ _ ihl ihr =>
    intro hproper
    rw [List.forall_mem_cons, List.forall_mem_append]
    refine ⟨?_, ihl hproper.1, ihr hproper.2⟩
    rw [node]
    rintro _ _ ⟨⟩
  | @complement id c o operand is node hc ih =>
    intro hproper
    rw [List.forall_mem_cons]
    constructor
    · rw [node]
      rintro _ _ ⟨⟩
    · rcases hproper with hproper | ⟨n, rfl⟩
      · exact ih hproper
      · cases hc with
        | unit =>
          rw [List.forall_mem_singleton]
          exact fun _ _ _ _ ↦ ⟨id, o, node⟩

end Spans

/-- Of two places one of which comes later in a list without repetitions, the other has the smaller
index. -/
theorem idxOf_lt_of_sublist {l : List Nat} (hnodup : l.Nodup) (h : [i, j].Sublist l) :
    l.idxOf i < l.idxOf j := by
  obtain ⟨front, back, rfl, hi, hj⟩ := List.cons_sublist_iff.mp h
  have hback : j ∈ back := List.singleton_sublist.mp hj
  have hfront : j ∉ front := fun hmem ↦ (List.nodup_append.mp hnodup).2.2 j hmem j hback rfl
  rw [List.idxOf_append_of_mem hi, List.idxOf_append_of_notMem hfront]
  exact Nat.lt_add_right _ (List.idxOf_lt_length_of_mem hi)

/-- A tree that takes up the arena. -/
theorem isArena_of_fills (h : r.Fills x) (hproper : x.IsProper) : r.IsArena := by
  obtain ⟨⟨ids, hspans, hnodup⟩, hsize⟩ := h
  -- The tree has as many places as the arena.
  have hperm : ids.Perm (List.range r.size) := by
    have hsub : ids ⊆ List.range r.size := fun i hi ↦ List.mem_range.mpr (hspans.lt_size i hi)
    refine (hnodup.subperm hsub).perm_of_length_le ?_
    rw [List.length_range, hspans.length_eq, hsize]
  have hmem {i : Nat} {n : RegionNode} (hn : r.node? i = some n) : i ∈ ids :=
    hperm.mem_iff.mpr (List.mem_range.mpr (Array.getElem?_eq_some_iff.mp hn).1)
  have hchild {i j : Nat} (hij : r.Child i j) : i ∈ ids ∧ j ∈ childrenAt r.nodes i := by
    refine ⟨?_, child_iff.mp hij⟩
    obtain ⟨n, hn, -⟩ := hij
    exact hmem hn
  have hlater {i j : Nat} (hij : r.Child i j) : [i, j].Sublist ids :=
    hspans.sublist_of_mem_children (hchild hij).1 (hchild hij).2
  -- No place is an operand twice.
  have hchildren : (ids.flatMap (childrenAt r.nodes)).Nodup :=
    hspans.perm_children.nodup_iff.mpr (hnodup.sublist (List.tail_sublist ids))
  obtain ⟨honce, hapart⟩ := List.nodup_flatMap.mp hchildren
  refine ⟨hspans.lt_size _ hspans.mem, fun i j hij ↦ ?_, fun i hi ↦ ?_, fun i hcycle ↦ ?_,
    fun i j k hik hjk ↦ ?_, fun i n hn ↦ ?_, fun i op l right o hn ↦ ?_, fun i s o hn ↦ ?_⟩
  · exact hspans.lt_size j ((hlater hij).subset (by simp))
  · exact hspans.reaches i (hperm.mem_iff.mpr (List.mem_range.mpr hi))
  · have hlt {j : Nat} (hij : Relation.TransGen r.Child i j) : ids.idxOf i < ids.idxOf j := by
      induction hij with
      | single hij => exact idxOf_lt_of_sublist hnodup (hlater hij)
      | tail _ hjk ih => exact ih.trans (idxOf_lt_of_sublist hnodup (hlater hjk))
    exact Nat.lt_irrefl _ (hlt hcycle)
  · by_contra hne
    have : Std.Symm (Function.onFun List.Disjoint (childrenAt r.nodes)) := ⟨fun _ _ h ↦ h.symm⟩
    exact hapart.forall (hchild hik).1 (hchild hjk).1 hne (hchild hik).2 (hchild hjk).2
  · have hnodes := honce i (hmem hn)
    have hnode : r.nodes[i]? = some n := hn
    rwa [childrenAt, hnode] at hnodes
  · exact hspans.arity i (hmem hn) op l right o hn
  · exact hspans.exists_complement hproper i (hmem hn) s o hn

/-- Whatever the operations do, the nodes of the arena are a tree. -/
theorem Made.isArena (h : Made (fun s ↦ ∃ n, s = .surface n) r) : r.IsArena := by
  obtain ⟨x, hx, hproper⟩ := h.fills
  exact isArena_of_fills hx (hproper fun _ hs ↦ hs)

/-- A region that is joined in place to a copy of itself shares no node with it. -/
theorem isArena_of_copy :
    let r := ((surface 1).or (outsideCell 2)).andWith (surface (-3))
    Made (fun s ↦ ∃ n, s = .surface n) (r.andWith r) ∧ (r.andWith r).IsArena := by
  have hr : Made (fun s ↦ ∃ n, s = .surface n)
      (((surface 1).or (outsideCell 2)).andWith (surface (-3))) :=
    .andWith (.or (.ofSide ⟨1, rfl⟩) (.outsideCell 2)) (.ofSide ⟨-3, rfl⟩)
  exact ⟨hr.andWith hr, (hr.andWith hr).isArena⟩

/-!
## Compact copies

The nodes that the walk of a region visits are copied in its order, and the table of their new
places is made before the first of them is.  The copy is the same region in an arena of its own:
what cannot be reached from the root is left behind, and no link is shifted by what is left behind.
-/

variable {r c : Region} {x : RegionTree} {i j k size : Nat} {order : List Nat}

/-! ## Tables -/

/-- The new place of an old node, if it has one. -/
def place? (table : Array (Option Nat)) (i : Nat) : Option Nat := table[i]?.getD none

/-- The same node with its operands, in their order, at their new places. -/
inductive Moves (table : Array (Option Nat)) : RegionNode → RegionNode → Prop where
  | unit {s : Side} {o : Option Nat} : Moves table (.unit s o) (.unit s o)
  | branch {op : RegionOp} {l l' : Nat} {right right' o : Option Nat}
      (left : place? table l = some l')
        (rights : Option.Rel (fun i k ↦ place? table i = some k) right right') :
      Moves table (.branch op l right o) (.branch op l' right' o)

/-- The table gives each node that is reached from the root a place of its own in an arena without
other nodes, and there the nodes are those of the region again. -/
structure IsCopy (r c : Region) (table : Array (Option Nat)) : Prop where
  size_table : table.size = r.size
  placed_iff : ∀ i, (place? table i).isSome ↔ Relation.ReflTransGen r.Child r.root i
  injective : ∀ i j k, place? table i = some k → place? table j = some k → i = j
  onto : ∀ k, (∃ i, place? table i = some k) ↔ k < c.size
  root : place? table r.root = some c.root
  node : ∀ i k, place? table i = some k →
    ∃ m n, r.node? i = some m ∧ c.node? k = some n ∧ Moves table m n
  cell : c.cell = r.cell
  size_eq : c.size = r.walk.length
  same : c.same r = .ok true
  text : c.text = r.text

theorem size_placeTable (size start : Nat) (order : List Nat) :
    (placeTable size start order).size = size := by
  have hsize {f : Array (Option Nat) → Nat × Nat → Array (Option Nat)}
      (hf : ∀ table entry, (f table entry).size = table.size) (entries : List (Nat × Nat))
      (table : Array (Option Nat)) : (entries.foldl f table).size = table.size := by
    induction entries generalizing table with
    | nil => rfl
    | cons entry entries ih => rw [List.foldl_cons, ih, hf]
  rw [placeTable, hsize fun _ _ ↦ Array.size_modify, Array.size_replicate]

/-- The places are handed out in the order of the walk. -/
theorem place?_placeTable (hnodup : order.Nodup) (hlt : ∀ i ∈ order, i < size) :
    place? (placeTable size 0 order) i = some k ↔ order[k]? = some i := by
  have htable : ∀ i ∈ order, i < (Array.replicate size (none : Option Nat)).size := by
    simpa using hlt
  rw [place?, placeTable, getElem?_place hnodup htable, Nat.zero_add]
  constructor
  · split_ifs with hi
    · rintro ⟨⟩
      exact List.getElem?_idxOf hi
    · intro h
      rw [Array.getElem?_replicate] at h
      split_ifs at h <;> cases h
  · intro hk
    obtain ⟨hlength, rfl⟩ := List.getElem?_eq_some_iff.mp hk
    rw [if_pos (List.getElem_mem hlength), hnodup.idxOf_getElem]
    rfl

variable {table : Array (Option Nat)}

theorem place?_eq_placeIn (hplaced : (place? table i).isSome) :
    place? table i = some (placeIn table i) := by
  obtain ⟨k, hk⟩ := Option.isSome_iff_exists.mp hplaced
  have hvalue : placeIn table i = (place? table i).getD 0 := rfl
  rw [hvalue, hk, Option.getD_some]

theorem moves_renumber {n : RegionNode} (hplaced : ∀ i ∈ n.children, (place? table i).isSome) :
    Moves table n (n.renumber (placeIn table)) := by
  have hplace {i : Nat} (hi : i ∈ n.children) : place? table i = some (placeIn table i) :=
    place?_eq_placeIn (hplaced i hi)
  cases n with
  | unit s o => exact .unit
  | branch op l right o =>
    refine .branch (hplace (List.mem_cons_self ..)) ?_
    cases right with
    | none => exact .none
    | some i => exact .some (hplace (by simp [RegionNode.children]))

/-! ## Copies -/

theorem getElem?_copies {nodes : Array RegionNode} (hnodes : ∀ i ∈ order, ∃ n, nodes[i]? = some n)
    (f : RegionNode → RegionNode) (k : Nat) :
    (order.filterMap fun i ↦ nodes[i]?.map f)[k]? = order[k]?.bind fun i ↦ nodes[i]?.map f := by
  induction order generalizing k with
  | nil => rfl
  | cons i order ih =>
    obtain ⟨⟨n, hn⟩, hnodes⟩ := List.forall_mem_cons.mp hnodes
    rw [List.filterMap_cons_some (b := f n) (by simp [hn])]
    cases k with
    | zero => simp [hn]
    | succ k => simpa using ih hnodes k

namespace IsTree

/-- Only what is reached from the root is walked on, and all of it. -/
theorem mem_walk_iff (h : r.IsTree x) : i ∈ r.walk ↔ Relation.ReflTransGen r.Child r.root i := by
  obtain ⟨hspans, -⟩ := h.exists_walk
  refine ⟨hspans.reaches i, fun hreach ↦ ?_⟩
  induction hreach with
  | refl => exact hspans.mem
  | tail _ hchild ih =>
    exact (hspans.sublist_of_mem_children ih (child_iff.mp hchild)).subset (by simp)

/-- Whatever else the arena holds. -/
theorem isCopy_compact (h : r.IsTree x) : IsCopy r r.compactWithTable.1 r.compactWithTable.2 := by
  obtain ⟨hspans, hnodup⟩ := h.exists_walk
  have hcompact : r.compact.IsTree x := h.linked.compact.isTree
  have hplace {i k : Nat} : place? r.compactWithTable.2 i = some k ↔ r.walk[k]? = some i :=
    place?_placeTable hnodup hspans.lt_size
  have hplaced {i : Nat} : (place? r.compactWithTable.2 i).isSome ↔ i ∈ r.walk := by
    rw [Option.isSome_iff_exists, List.mem_iff_getElem?]
    exact exists_congr fun k ↦ hplace
  have hsize : r.compactWithTable.1.size = r.walk.length := by
    have hcopied := size_copyBehind h #[] true
    rwa [Array.size_empty, Nat.zero_add, ← hspans.length_eq] at hcopied
  have hnode (k : Nat) : r.compactWithTable.1.node? k =
      r.walk[k]?.bind fun i ↦ (r.node? i).map (copyNode r.compactWithTable.2 true) := by
    have hcopies := getElem?_copies hspans.exists_node (copyNode r.compactWithTable.2 true) k
    refine Eq.trans ?_ hcopies
    simp [compactWithTable, copyBehind, node?]
  refine ⟨?_, fun i ↦ ?_, fun i j k hi hj ↦ ?_, fun k ↦ ?_, ?_, fun i k hk ↦ ?_, rfl, hsize, ?_, ?_⟩
  · exact size_placeTable _ _ _
  · rw [hplaced, h.mem_walk_iff]
  · exact Option.some.inj ((hplace.mp hi).symm.trans (hplace.mp hj))
  · rw [exists_congr fun i ↦ hplace, hsize]
    simp [List.getElem?_eq_some_iff]
  · exact place?_eq_placeIn (hplaced.mpr hspans.mem)
  · obtain ⟨m, hm⟩ := hspans.exists_node i (List.mem_of_getElem? (hplace.mp hk))
    have hmoved : r.compactWithTable.1.node? k =
        some (m.renumber (placeIn r.compactWithTable.2)) := by
      rw [hnode, hplace.mp hk, Option.bind_some, node?, hm]
      rfl
    refine ⟨m, _, hm, hmoved, moves_renumber fun j hj ↦ hplaced.mpr ?_⟩
    have hwalked := h.mem_walk_iff.mp (List.mem_of_getElem? (hplace.mp hk))
    exact h.mem_walk_iff.mpr (hwalked.tail ⟨m, hm, hj⟩)
  · exact (hcompact.same_eq_true_iff h).mpr rfl
  · exact hcompact.text_eq.trans h.text_eq.symm

end IsTree

/-- Whatever the operations come to is copied as it is. -/
theorem Made.isCopy_compactWithTable {S : Side → Prop} (h : Made S r) :
    IsCopy r r.compactWithTable.1 r.compactWithTable.2 := by
  obtain ⟨x, hx, -⟩ := h.fills
  exact hx.isTree.isCopy_compact

/-- The root of a grafted chain stands in the middle of its arena. -/
theorem isCopy_of_grafted_chain :
    let r := ((surface 1).and (outsideCell 2)).andWith (surface (-3))
    Made (fun _ ↦ True) r ∧
      r.compactWithTable.2 = #[some 1, some 3, some 4, some 0, some 5, some 2] ∧
      IsCopy r r.compactWithTable.1 r.compactWithTable.2 := by
  have h : Made (fun _ ↦ True) (((surface 1).and (outsideCell 2)).andWith (surface (-3))) :=
    .andWith (.and (.ofSide trivial) (.outsideCell 2)) (.ofSide trivial)
  exact ⟨h, rfl, h.isCopy_compactWithTable⟩

end TransportDeck.Region
