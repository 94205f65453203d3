import Mathlib.Tactic
import TransportDeck.Region.Algebra
import TransportDeck.Region.Basic

/-!
# Regions as trees

The nodes of a region stand in an arena.  Below a place of it there is a tree if the operands of
every branch are trees in turn; the places of its nodes are listed along with it, in the order of
the walk.

Every operation of the algebra copies its operands, so what it gives is a tree again, and the nodes
remember no other entries than those of the operands.
-/

namespace TransportDeck

/-- A region as an expression.  The operator of a join is no complement. -/
inductive RegionTree where
  | unit (side : Side)
  | join (op : RegionOp) (left right : RegionTree)
  | complement (operand : RegionTree)

namespace RegionTree

def depth : RegionTree → Nat
  | unit _ => 1
  | join _ l r => max l.depth r.depth + 1
  | complement t => t.depth + 1

/-- The sides in written order. -/
def sides : RegionTree → List Side
  | unit s => [s]
  | join _ l r => l.sides ++ r.sides
  | complement t => t.sides

def holds (inside : Side → Bool) : RegionTree → Bool
  | unit s => inside s
  | join op l r =>
    if op = .or then l.holds inside || r.holds inside else l.holds inside && r.holds inside
  | complement t => !t.holds inside

/-- Two expressions with the same sides in the same order, and the same meaning. -/
structure Agrees (x y : RegionTree) : Prop where
  sides_eq : x.sides = y.sides
  holds_eq : ∀ inside, x.holds inside = y.holds inside

theorem Agrees.refl (x : RegionTree) : x.Agrees x := ⟨rfl, fun _ ↦ rfl⟩

end RegionTree

namespace RegionNode

@[simp] theorem renumber_self (n : RegionNode) : n.renumber (fun i ↦ i) = n := by
  cases n <;> simp [renumber]

@[simp] theorem origin_setOrigin (n : RegionNode) (o : Option Nat) :
    (n.setOrigin o).origin = o := by
  cases n <;> rfl

@[simp] theorem origin_renumber (n : RegionNode) (f : Nat → Nat) :
    (n.renumber f).origin = n.origin := by
  cases n <;> rfl

@[simp] theorem setOrigin_origin (n : RegionNode) : n.setOrigin n.origin = n := by
  cases n <;> rfl

end RegionNode

namespace Region

variable {nodes nodes' : Array RegionNode} {id : Nat} {tree : RegionTree} {ids : List Nat}

/-- Below the place stands the tree, and these are the places of its nodes. -/
inductive Spans (nodes : Array RegionNode) : Nat → RegionTree → List Nat → Prop where
  | unit {id : Nat} {s : Side} {o : Option Nat} (node : nodes[id]? = some (.unit s o)) :
      Spans nodes id (.unit s) [id]
  | join {id l r : Nat} {op : RegionOp} {o : Option Nat} {left right : RegionTree}
      {is js : List Nat} (node : nodes[id]? = some (.branch op l (some r) o))
        (isJoin : op ≠ .complement)
      (atLeft : Spans nodes l left is) (atRight : Spans nodes r right js) :
      Spans nodes id (.join op left right) (id :: (is ++ js))
  | complement {id c : Nat} {o : Option Nat} {operand : RegionTree} {is : List Nat}
      (node : nodes[id]? = some (.branch .complement c none o)) (below : Spans nodes c operand is) :
      Spans nodes id (.complement operand) (id :: is)

namespace Spans

/-- The tree is the same wherever its nodes are put, and whatever they come from. -/
theorem rename (h : Spans nodes id tree ids) {f : Nat → Nat}
    (hf : ∀ i ∈ ids, ∀ n, nodes[i]? = some n →
      ∃ o, nodes'[f i]? = some ((n.renumber f).setOrigin o)) :
    Spans nodes' (f id) tree (ids.map f) := by
  induction h with
  | unit node =>
    obtain ⟨o, ho⟩ := hf _ (List.mem_singleton_self _) _ node
    exact .unit ho
  | join node isJoin _ _ ihl ihr =>
    obtain ⟨o, ho⟩ := hf _ (List.mem_cons_self ..) _ node
    rw [List.map_cons, List.map_append]
    refine .join ho isJoin (ihl fun i hi ↦ hf i ?_) (ihr fun i hi ↦ hf i ?_)
    · exact List.mem_cons_of_mem _ (List.mem_append_left _ hi)
    · exact List.mem_cons_of_mem _ (List.mem_append_right _ hi)
  | complement node _ ih =>
    obtain ⟨o, ho⟩ := hf _ (List.mem_cons_self ..) _ node
    exact .complement ho (ih fun i hi ↦ hf i (List.mem_cons_of_mem _ hi))

/-- Other origins make no other tree. -/
theorem congr_origin (h : Spans nodes id tree ids) (hnodes : ∀ i ∈ ids, ∀ n, nodes[i]? = some n →
    ∃ o, nodes'[i]? = some (n.setOrigin o)) : Spans nodes' id tree ids := by
  have hsame : Spans nodes' id tree (ids.map fun i ↦ i) :=
    h.rename (f := fun i ↦ i) (by simpa using hnodes)
  rwa [List.map_id'] at hsame

/-- Only the nodes of the tree matter. -/
theorem congr (h : Spans nodes id tree ids) (hnodes : ∀ i ∈ ids, nodes'[i]? = nodes[i]?) :
    Spans nodes' id tree ids := by
  refine h.congr_origin fun i hi n hn ↦ ⟨n.origin, ?_⟩
  rw [hnodes i hi, hn, n.setOrigin_origin]

/-- Below a node stands one tree. -/
theorem unique {tree' : RegionTree} {ids' : List Nat} (h : Spans nodes id tree ids)
    (h' : Spans nodes id tree' ids') : tree = tree' ∧ ids = ids' := by
  induction h generalizing tree' ids' with
  | unit node =>
    cases h' with
    | unit node' =>
      obtain ⟨⟩ := Option.some.inj (node.symm.trans node')
      exact ⟨rfl, rfl⟩
    | join node' | complement node' => cases Option.some.inj (node.symm.trans node')
  | join node _ _ _ ihl ihr =>
    cases h' with
    | join node' _ hl hr =>
      obtain ⟨⟩ := Option.some.inj (node.symm.trans node')
      obtain ⟨rfl, rfl⟩ := ihl hl
      obtain ⟨rfl, rfl⟩ := ihr hr
      exact ⟨rfl, rfl⟩
    | unit node' | complement node' => cases Option.some.inj (node.symm.trans node')
  | complement node _ ih =>
    cases h' with
    | complement node' hbelow =>
      obtain ⟨⟩ := Option.some.inj (node.symm.trans node')
      obtain ⟨rfl, rfl⟩ := ih hbelow
      exact ⟨rfl, rfl⟩
    | unit node' | join node' => cases Option.some.inj (node.symm.trans node')

/-- A tree has its own root among its places. -/
theorem mem (h : Spans nodes id tree ids) : id ∈ ids := by
  cases h <;> simp

/-- There is a node at each place of a tree. -/
theorem exists_node (h : Spans nodes id tree ids) : ∀ i ∈ ids, ∃ n, nodes[i]? = some n := by
  induction h with
  | unit node => simpa using ⟨_, node⟩
  | join node _ _ _ ihl ihr =>
    rw [List.forall_mem_cons, List.forall_mem_append]
    exact ⟨⟨_, node⟩, ihl, ihr⟩
  | complement node _ ih =>
    rw [List.forall_mem_cons]
    exact ⟨⟨_, node⟩, ih⟩

theorem lt_size (h : Spans nodes id tree ids) : ∀ i ∈ ids, i < nodes.size := by
  intro i hi
  obtain ⟨n, hn⟩ := h.exists_node i hi
  exact (Array.getElem?_eq_some_iff.mp hn).1

/-- A tree is no deeper than it has places. -/
theorem depth_le (h : Spans nodes id tree ids) : tree.depth ≤ ids.length := by
  induction h with
  | unit => exact le_rfl
  | join _ _ _ _ ihl ihr =>
    simp only [RegionTree.depth, List.length_cons, List.length_append]
    omega
  | complement _ _ ih =>
    simp only [RegionTree.depth, List.length_cons]
    omega

/-- A tree without a place twice has no more places than the arena. -/
theorem length_le (h : Spans nodes id tree ids) (hnodup : ids.Nodup) : ids.length ≤ nodes.size := by
  have hsub : ids ⊆ List.range nodes.size := fun i hi ↦ List.mem_range.mpr (h.lt_size i hi)
  simpa using (hnodup.subperm hsub).length_le

/-- The fuel of the walk is enough for every tree of the arena. -/
theorem depth_le_size (h : Spans nodes id tree ids) (hnodup : ids.Nodup) :
    tree.depth ≤ nodes.size :=
  h.depth_le.trans (h.length_le hnodup)

/-! ## Walks -/

/-- The sides of a tree are those of its nodes, in the order of the walk. -/
theorem sides_eq (h : Spans nodes id tree ids) :
    ids.filterMap (fun i ↦ nodes[i]?.bind RegionNode.side?) = tree.sides := by
  induction h with
  | unit node => simp [node, RegionNode.side?, RegionTree.sides]
  | join node _ _ _ ihl ihr =>
    rw [List.filterMap_cons_none (by simp [node, RegionNode.side?]),
      List.filterMap_append, ihl, ihr]
    rfl
  | complement node _ ih =>
    rw [List.filterMap_cons_none (by simp [node, RegionNode.side?]), ih]
    rfl

/-- Marking a place leaves the marks of the others. -/
theorem getElem?_mark_of_ne {seen : Array Bool} {i j : Nat} (h : i ≠ j) :
    (seen.modify j fun _ ↦ true)[i]? = seen[i]? := by
  rw [Array.getElem?_modify, if_neg (Ne.symm h)]

/-- Below a place that nothing has been seen of, the walk visits every node once, in order. -/
theorem visit_eq {r : Region} (h : Spans r.nodes id tree ids) (hnodup : ids.Nodup)
    (seen : Array Bool) (hseen : ∀ i ∈ ids, seen[i]? = some false) (fuel : Nat) (stack : List Nat) :
    ∃ seen' : Array Bool, (∀ i ∉ ids, seen'[i]? = seen[i]?) ∧
      r.visit (ids.length + fuel) seen (id :: stack) = ids ++ r.visit fuel seen' stack := by
  induction h generalizing seen fuel stack with
  | @unit id s o node =>
    have hnode : r.node? id = some (.unit s o) := node
    refine ⟨seen.modify id fun _ ↦ true, ?_, ?_⟩
    · intro i hi
      exact getElem?_mark_of_ne (by simpa using hi)
    · simp [Nat.add_comm 1, visit, hnode, hseen, RegionNode.children]
  | @join id l rt op o left right is js node _ _ _ ihl ihr =>
    have hnode : r.node? id = some (.branch op l (some rt) o) := node
    obtain ⟨hid, hrest⟩ := List.nodup_cons.mp hnodup
    obtain ⟨his, hjs, hdisjoint⟩ := List.nodup_append.mp hrest
    have hmarked (i : Nat) (hi : i ∈ is ++ js) :
        (seen.modify id fun _ ↦ true)[i]? = some false := by
      rw [getElem?_mark_of_ne (ne_of_mem_of_not_mem hi hid)]
      exact hseen i (List.mem_cons_of_mem _ hi)
    obtain ⟨seenl, hl, hvisitl⟩ := ihl his _ (fun i hi ↦ hmarked i (List.mem_append_left _ hi))
      (js.length + fuel) (rt :: stack)
    obtain ⟨seenr, hr, hvisitr⟩ := ihr hjs seenl (fun i hi ↦ by
      rw [hl i fun hmem ↦ hdisjoint i hmem i hi rfl]
      exact hmarked i (List.mem_append_right _ hi)) fuel stack
    refine ⟨seenr, ?_, ?_⟩
    · intro i hi
      simp only [List.mem_cons, List.mem_append, not_or] at hi
      rw [hr i hi.2.2, hl i hi.2.1, getElem?_mark_of_ne hi.1]
    · have hfuel : (id :: (is ++ js)).length + fuel = (is.length + (js.length + fuel)) + 1 := by
        simp only [List.length_cons, List.length_append]
        omega
      rw [hfuel, visit, hnode]
      simp only [hseen id (List.mem_cons_self ..), Option.getD_some, Bool.false_eq_true, if_false,
        RegionNode.children, Option.toList_some, List.cons_append, List.nil_append, hvisitl,
        hvisitr, List.append_assoc]
  | @complement id c o operand is node _ ih =>
    have hnode : r.node? id = some (.branch .complement c none o) := node
    obtain ⟨hid, his⟩ := List.nodup_cons.mp hnodup
    obtain ⟨seen', hs, hvisit⟩ := ih his (seen.modify id fun _ ↦ true) (fun i hi ↦ by
      rw [getElem?_mark_of_ne (ne_of_mem_of_not_mem hi hid)]
      exact hseen i (List.mem_cons_of_mem _ hi)) fuel stack
    refine ⟨seen', ?_, ?_⟩
    · intro i hi
      rw [List.mem_cons, not_or] at hi
      rw [hs i hi.2, getElem?_mark_of_ne hi.1]
    · have hfuel : (id :: is).length + fuel = (is.length + fuel) + 1 := by
        rw [List.length_cons]
        omega
      rw [hfuel, visit, hnode]
      simp only [hseen id (List.mem_cons_self ..), Option.getD_some, Bool.false_eq_true, if_false,
        RegionNode.children, Option.toList_none, List.cons_append, List.nil_append, hvisit]

/-- The truth value that is computed in the arena is that of the tree. -/
theorem holdsAt_eq {r : Region} (h : Spans r.nodes id tree ids) (inside : Side → Bool) {fuel : Nat}
    (hfuel : tree.depth ≤ fuel) : r.holdsAt inside fuel id = tree.holds inside := by
  induction h generalizing fuel with
  | @unit id s o node =>
    have hnode : r.node? id = some (.unit s o) := node
    obtain ⟨n, rfl⟩ : ∃ n, fuel = n + 1 :=
      ⟨fuel - 1, by simp only [RegionTree.depth] at hfuel; omega⟩
    simp only [holdsAt, hnode, RegionTree.holds]
  | @join id l rt op o left right is js node isJoin _ _ ihl ihr =>
    have hnode : r.node? id = some (.branch op l (some rt) o) := node
    simp only [RegionTree.depth] at hfuel
    obtain ⟨n, rfl⟩ : ∃ n, fuel = n + 1 := ⟨fuel - 1, by omega⟩
    have hl : r.holdsAt inside n l = left.holds inside := ihl (by omega)
    have hr : r.holdsAt inside n rt = right.holds inside := ihr (by omega)
    cases op with
    | and => simp [holdsAt, hnode, hl, hr, RegionTree.holds]
    | or => simp [holdsAt, hnode, hl, hr, RegionTree.holds]
    | complement => exact absurd rfl isJoin
  | @complement id c o operand is node _ ih =>
    have hnode : r.node? id = some (.branch .complement c none o) := node
    simp only [RegionTree.depth] at hfuel
    obtain ⟨n, rfl⟩ : ∃ n, fuel = n + 1 := ⟨fuel - 1, by omega⟩
    have hc : r.holdsAt inside n c = operand.holds inside := ih (by omega)
    simp only [holdsAt, hnode, hc, RegionTree.holds]

end Spans

/-- The nodes below the root make up a tree. -/
def IsTree (r : Region) (tree : RegionTree) : Prop :=
  ∃ ids, Spans r.nodes r.root tree ids ∧ ids.Nodup

namespace IsTree

variable {r : Region}

/-- The walk from the root lists the places of the tree, each once. -/
theorem exists_walk (h : r.IsTree tree) : Spans r.nodes r.root tree r.walk ∧ r.walk.Nodup := by
  obtain ⟨ids, hspans, hnodup⟩ := h
  have hlength := hspans.length_le hnodup
  have hseen : ∀ i ∈ ids, (Array.replicate r.size false)[i]? = some false := by
    intro i hi
    have hlt : i < r.size := hspans.lt_size i hi
    simp [hlt]
  obtain ⟨fuel, hfuel⟩ : ∃ fuel, 2 * r.size + 1 = ids.length + fuel :=
    ⟨2 * r.size + 1 - ids.length, by simp only [size]; omega⟩
  obtain ⟨seen, -, hvisit⟩ := hspans.visit_eq hnodup _ hseen fuel []
  have hwalk : r.walk = ids := by
    rw [walk, hfuel, hvisit]
    cases fuel <;> simp [visit]
  rw [hwalk]
  exact ⟨hspans, hnodup⟩

/-- The sides of a region are those of its tree. -/
theorem sides_eq (h : r.IsTree tree) : r.sides = tree.sides := h.exists_walk.1.sides_eq

/-- The truth value of a region is that of its tree. -/
theorem holds_eq (h : r.IsTree tree) (inside : Side → Bool) :
    r.holds inside = tree.holds inside := by
  obtain ⟨ids, hspans, hnodup⟩ := h
  exact hspans.holdsAt_eq inside (hspans.depth_le_size hnodup)

end IsTree

end Region

/-! ## Cells -/

namespace RegionNode

/-- Whether the node is the inside of a cell. -/
def isCell (n : RegionNode) : Bool := n.side?.any (·.isCell)

@[simp] theorem isCell_setOrigin (n : RegionNode) (o : Option Nat) :
    (n.setOrigin o).isCell = n.isCell := by
  cases n <;> rfl

@[simp] theorem isCell_renumber (n : RegionNode) (f : Nat → Nat) :
    (n.renumber f).isCell = n.isCell := by
  cases n <;> rfl

end RegionNode

namespace Region

variable {nodes more : Array RegionNode} {id : Nat} {tree : RegionTree}
  {ids : List Nat} {r : Region}

namespace Spans

/-- More nodes behind the arena leave a tree as it is. -/
theorem append (h : Spans nodes id tree ids) (more : Array RegionNode) :
    Spans (nodes ++ more) id tree ids :=
  h.congr fun i hi ↦ Array.getElem?_append_left (h.lt_size i hi)

theorem push (h : Spans nodes id tree ids) (n : RegionNode) : Spans (nodes.push n) id tree ids :=
  h.congr fun i hi ↦ by
    rw [Array.getElem?_push_lt (h.lt_size i hi), Array.getElem?_eq_getElem (h.lt_size i hi)]

end Spans

/-! ## Places of copies -/

/-- The table says for each place its number in the order, and nothing for the other places. -/
theorem getElem?_place {order : List Nat} (hnodup : order.Nodup) {table : Array (Option Nat)}
    (hlt : ∀ x ∈ order, x < table.size) (start x : Nat) :
    ((order.zipIdx start).foldl (fun table (old, new) ↦ table.modify old fun _ ↦ some new)
      table)[x]? =
      if x ∈ order then some (some (start + order.idxOf x)) else table[x]? := by
  induction order generalizing table start with
  | nil => simp
  | cons y ys ih =>
    obtain ⟨hy, hys⟩ := List.nodup_cons.mp hnodup
    obtain ⟨hlty, hltys⟩ := List.forall_mem_cons.mp hlt
    rw [List.zipIdx_cons, List.foldl_cons, ih hys (by simpa using hltys)]
    by_cases hx : x ∈ ys
    · have hne : y ≠ x := fun heq ↦ hy (heq ▸ hx)
      rw [if_pos hx, if_pos (List.mem_cons_of_mem _ hx), List.idxOf_cons_ne _ hne]
      congr 2
      omega
    · rw [if_neg hx]
      by_cases hxy : x = y
      · subst hxy
        rw [if_pos (List.mem_cons_self ..), Array.getElem?_modify, if_pos rfl,
          Array.getElem?_eq_getElem hlty]
        simp
      · have hmem : x ∉ y :: ys := by simp [hx, hxy]
        rw [if_neg hmem, Array.getElem?_modify, if_neg (Ne.symm hxy)]

/-- A place of the order is moved to its number in the order. -/
theorem placeIn_placeTable {order : List Nat} (hnodup : order.Nodup) {size : Nat}
    (hlt : ∀ x ∈ order, x < size) (start : Nat) {x : Nat} (hx : x ∈ order) :
    placeIn (placeTable size start order) x = start + order.idxOf x := by
  have htable : ∀ x ∈ order, x < (Array.replicate size (none : Option Nat)).size := by
    simpa using hlt
  rw [placeIn, placeTable, getElem?_place hnodup htable, if_pos hx]
  rfl

/-! ## Copies -/

/-- The copies behind other nodes make up the same tree. -/
theorem copyBehind_spec (h : r.IsTree tree) (nodes : Array RegionNode) (keepOrigins : Bool) :
    ∃ copies ids, (r.copyBehind nodes keepOrigins).1 = nodes ++ copies ∧
      Spans (nodes ++ copies) (r.copyBehind nodes keepOrigins).2.1 tree ids ∧ ids.Nodup ∧
      (∀ i ∈ ids, nodes.size ≤ i) ∧
      ∀ n ∈ copies, ∀ o ∈ n.origin, keepOrigins = true ∧
        ∃ m ∈ r.nodes, m.isCell = n.isCell ∧ o ∈ m.origin := by
  obtain ⟨hspans, hnodup⟩ := h.exists_walk
  let table := placeTable r.size nodes.size r.walk
  let copy (i : Nat) : RegionNode :=
    copyNode table keepOrigins ((r.node? i).getD (.unit ⟨0, true, false⟩ none))
  have hplace {i : Nat} (hi : i ∈ r.walk) : placeIn table i = nodes.size + r.walk.idxOf i :=
    placeIn_placeTable hnodup hspans.lt_size _ hi
  have hcopies : r.walk.filterMap (fun i ↦ (r.node? i).map (copyNode table keepOrigins)) =
      r.walk.map copy := by
    rw [← List.filterMap_eq_map]
    refine List.filterMap_congr fun i hi ↦ ?_
    obtain ⟨n, hn⟩ := hspans.exists_node i hi
    have hnode : r.node? i = some n := hn
    simp [copy, hnode]
  have hfirst : (r.copyBehind nodes keepOrigins).1 = nodes ++ (r.walk.map copy).toArray := by
    rw [← hcopies]
    rfl
  have hcopied {i : Nat} {n : RegionNode} (hi : i ∈ r.walk) (hn : r.nodes[i]? = some n) :
      (nodes ++ (r.walk.map copy).toArray)[placeIn table i]? =
        some (copyNode table keepOrigins n) := by
    have hnode : r.node? i = some n := hn
    rw [hplace hi, Array.getElem?_append_right (Nat.le_add_right _ _), Nat.add_sub_cancel_left]
    simp [List.getElem?_idxOf hi, copy, hnode]
  refine ⟨(r.walk.map copy).toArray, r.walk.map (placeIn table), hfirst, ?_, ?_, ?_, ?_⟩
  · refine hspans.rename (f := placeIn table) fun i hi n hn ↦ ?_
    rw [hcopied hi hn]
    cases keepOrigins with
    | true => exact ⟨n.origin, by cases n <;> rfl⟩
    | false => exact ⟨none, rfl⟩
  · refine hnodup.map_on fun i hi j hj heq ↦ ?_
    rw [hplace hi, hplace hj] at heq
    exact (List.idxOf_inj hi).mp (Nat.add_left_cancel heq)
  · intro j hj
    obtain ⟨i, hi, rfl⟩ := List.mem_map.mp hj
    rw [hplace hi]
    exact Nat.le_add_right _ _
  · intro n hn o ho
    obtain ⟨i, hi, rfl⟩ := List.mem_map.mp (List.mem_toArray.mp hn)
    obtain ⟨m, hm⟩ := hspans.exists_node i hi
    have hnode : r.node? i = some m := hm
    cases keepOrigins with
    | true =>
      refine ⟨rfl, m, Array.mem_of_getElem? hm, ?_, ?_⟩
      · simp [copy, hnode, copyNode]
      · simpa [copy, hnode, copyNode] using ho
    | false => simp [copy, copyNode] at ho

/-! ## Links -/

variable {L L' : Bool → Nat → Prop}

/-- A tree in which nodes come from entries that they are allowed to come from; what is allowed
depends on whether the node is the inside of a cell. -/
structure Linked (L : Bool → Nat → Prop) (r : Region) (tree : RegionTree) : Prop where
  isTree : r.IsTree tree
  origins : ∀ n ∈ r.nodes, ∀ o ∈ n.origin, L n.isCell o

namespace Linked

variable {a b r : Region} {x y tree : RegionTree}

theorem mono (h : r.Linked L tree) (himp : ∀ c o, L c o → L' c o) : r.Linked L' tree :=
  ⟨h.isTree, fun n hn o ho ↦ himp _ _ (h.origins n hn o ho)⟩

theorem setCell (h : r.Linked L tree) (cell : Option Int) : (r.setCell cell).Linked L tree :=
  ⟨h.isTree, h.origins⟩

/-- The region of one side has no origin yet. -/
theorem ofSide (s : Side) : (Region.ofSide s).Linked L (.unit s) := by
  refine ⟨⟨[0], .unit rfl, by simp⟩, ?_⟩
  simp [Region.ofSide, RegionNode.origin]

/-- The outside of a cell has no origin yet. -/
theorem outsideCell (n : Int) :
    (Region.outsideCell n).Linked L (.complement (.unit (.cell n))) := by
  refine ⟨⟨[1, 0], ?_, by simp⟩, ?_⟩
  · exact .complement (c := 0) (o := none) rfl (.unit (o := none) rfl)
  · simp [Region.outsideCell, RegionNode.origin]

/-- Compacting a region keeps its tree and its links. -/
theorem compact (h : r.Linked L tree) : r.compact.Linked L tree := by
  obtain ⟨copies, ids, hnodes, hspans, hnodup, -, horigins⟩ := copyBehind_spec h.isTree #[] true
  have hcompact : r.compact.nodes = #[] ++ copies := hnodes
  refine ⟨⟨ids, ?_, hnodup⟩, ?_⟩
  · rw [hcompact]
    exact hspans
  · intro n hn o ho
    rw [hcompact, Array.empty_append] at hn
    obtain ⟨-, m, hm, hcell, hmo⟩ := horigins n hn o ho
    exact hcell ▸ h.origins m hm o hmo

/-- A region that is taken over remembers nothing. -/
theorem detached (h : r.Linked L tree) : r.detached.Linked L' tree := by
  obtain ⟨copies, ids, hnodes, hspans, hnodup, -, horigins⟩ := copyBehind_spec h.isTree #[] false
  have hdetached : r.detached.nodes = #[] ++ copies := hnodes
  refine ⟨⟨ids, ?_, hnodup⟩, ?_⟩
  · rw [hdetached]
    exact hspans
  · intro n hn o ho
    rw [hdetached, Array.empty_append] at hn
    obtain ⟨habsurd, -⟩ := horigins n hn o ho
    cases habsurd

/-- Behind another region the copies make up the same tree, and remember what they may. -/
theorem append_spec (hb : b.Linked L y) (a : Region) : ∃ copies ids,
    (a.append b).1 = { a with nodes := a.nodes ++ copies } ∧
      Spans (a.nodes ++ copies) (a.append b).2 y ids ∧ ids.Nodup ∧
      (∀ i ∈ ids, a.nodes.size ≤ i) ∧ ∀ n ∈ copies, ∀ o ∈ n.origin, L n.isCell o := by
  obtain ⟨copies, ids, hnodes, hspans, hnodup, hge, horigins⟩ :=
    copyBehind_spec hb.isTree a.nodes (a.cell.isSome && a.cell == b.cell)
  refine ⟨copies, ids, congrArg (fun nodes ↦ { a with nodes }) hnodes, hspans, hnodup, hge, ?_⟩
  intro n hn o ho
  obtain ⟨-, m, hm, hcell, hmo⟩ := horigins n hn o ho
  exact hcell ▸ hb.origins m hm o hmo

/-- The nodes of both operands remember entries of their own. -/
theorem origins_append {nodes copies : Array RegionNode}
    (h : ∀ n ∈ nodes, ∀ o ∈ n.origin, L n.isCell o)
    (h' : ∀ n ∈ copies, ∀ o ∈ n.origin, L n.isCell o) :
    ∀ n ∈ nodes ++ copies, ∀ o ∈ n.origin, L n.isCell o := by
  intro n hn
  rcases Array.mem_append.mp hn with hn | hn
  · exact h n hn
  · exact h' n hn

theorem origins_push {nodes : Array RegionNode} (h : ∀ n ∈ nodes, ∀ o ∈ n.origin, L n.isCell o)
    {n : RegionNode} (hn : n.origin = none) : ∀ m ∈ nodes.push n, ∀ o ∈ m.origin, L m.isCell o := by
  intro m hm
  rcases Array.mem_push.mp hm with hm | rfl
  · exact h m hm
  · simp [hn]

/-- The union or the intersection of two regions is the tree that joins theirs. -/
theorem combine {op : RegionOp} (hop : op ≠ .complement) (ha : a.Linked L x) (hb : b.Linked L y) :
    (Region.combine op a b).Linked L (.join op x y) := by
  have hc := ha.compact
  obtain ⟨is, hleft, his⟩ := hc.isTree
  obtain ⟨copies, js, happend, hright, hjs, hge, horigins⟩ := hb.append_spec a.compact
  have hnodes : (Region.combine op a b).nodes = (a.compact.nodes ++ copies).push
      (.branch op a.compact.root (some (a.compact.append b).2) none) := by
    change (a.compact.append b).1.nodes.push _ = _
    rw [happend]
    rfl
  have hroot : (Region.combine op a b).root = (a.compact.nodes ++ copies).size := by
    change (a.compact.append b).1.nodes.size = _
    rw [happend]
  have hltl := (hleft.append copies).lt_size
  have hltr := hright.lt_size
  refine ⟨⟨(a.compact.nodes ++ copies).size :: (is ++ js), ?_, ?_⟩, ?_⟩
  · rw [hnodes, hroot]
    exact .join Array.getElem?_push_size hop ((hleft.append copies).push _) (hright.push _)
  · refine List.nodup_cons.mpr ⟨?_, List.nodup_append.mpr ⟨his, hjs, ?_⟩⟩
    · rw [List.mem_append]
      rintro (hi | hj)
      · exact Nat.lt_irrefl _ (hltl _ hi)
      · exact Nat.lt_irrefl _ (hltr _ hj)
    · rintro i hi j hj rfl
      exact Nat.lt_irrefl _ (Nat.lt_of_lt_of_le (hleft.lt_size i hi) (hge i hj))
  · rw [hnodes]
    exact origins_push (origins_append hc.origins horigins) rfl

/-- The complement of a region is the complement of its tree. -/
theorem complement (h : r.Linked L tree) : r.complement.Linked L (.complement tree) := by
  have hc := h.compact
  obtain ⟨ids, hspans, hnodup⟩ := hc.isTree
  refine ⟨⟨r.compact.nodes.size :: ids, ?_, ?_⟩, ?_⟩
  · exact .complement Array.getElem?_push_size (hspans.push _)
  · exact List.nodup_cons.mpr ⟨fun hi ↦ Nat.lt_irrefl _ (hspans.lt_size _ hi), hnodup⟩
  · exact origins_push hc.origins rfl

end Linked

end Region

end TransportDeck
