import TransportDeck.Proofs.Node.Runs
import TransportDeck.Proofs.Region.Grafting

/-!
# What the operations come to

Regions are made from sides and geometries by the operations alone.  Every region that is made so is
a tree, and no node of its arena stands outside of it.  A join has the sides of its operands in
order and the meaning of its operator, whether it is put on top or grafted in place, and grafting a
single side lets no region get deeper by more than one.
-/

namespace TransportDeck

namespace RegionTree

/-- The number of nodes. -/
def count : RegionTree → Nat
  | unit _ => 1
  | join _ l r => l.count + r.count + 1
  | complement t => t.count + 1

/-- Grafting joins the counts of both trees, and the node on top. -/
theorem count_graft (op : RegionOp) (x y : RegionTree) :
    (x.graft op y).count = x.count + y.count + 1 := by
  induction x with
  | unit | complement => rfl
  | join op' l r _ ih =>
    unfold graft
    split_ifs
    · simp only [count, ih]
      omega
    · rfl

theorem depth_pos (x : RegionTree) : 0 < x.depth := by
  cases x <;> exact Nat.succ_pos _

/-- A grafted tree is no deeper than both trees together. -/
theorem depth_graft_le (op : RegionOp) (x y : RegionTree) :
    (x.graft op y).depth ≤ x.depth + y.depth := by
  have hy := y.depth_pos
  induction x with
  | unit | complement =>
    simp only [graft, depth]
    omega
  | join op' l r _ ih =>
    unfold graft
    split_ifs
    · simp only [depth]
      omega
    · simp only [depth]
      omega

end RegionTree

namespace Region

variable {nodes nodes' : Array RegionNode} {id top : Nat} {tree x y : RegionTree} {ids : List Nat}
  {r a b : Region} {g : Geometry}

namespace Spans

/-- A tree has one place for each of its nodes. -/
theorem length_eq (h : Spans nodes id tree ids) : ids.length = tree.count := by
  induction h with
  | unit => rfl
  | join _ _ _ _ ihl ihr =>
    rw [List.length_cons, List.length_append, ihl, ihr]
    rfl
  | complement _ _ ih =>
    rw [List.length_cons, ih]
    rfl

/-- The depth that is computed in the arena is that of the tree. -/
theorem depthFrom_eq (h : Spans r.nodes id tree ids) {fuel : Nat} (hfuel : tree.depth ≤ fuel) :
    r.depthFrom fuel id = tree.depth := by
  induction h generalizing fuel with
  | @unit id s o node =>
    have hnode : r.node? id = some (.unit s o) := node
    obtain ⟨n, rfl⟩ : ∃ n, fuel = n + 1 :=
      ⟨fuel - 1, by simp only [RegionTree.depth] at hfuel; omega⟩
    simp [depthFrom, hnode, RegionNode.children, RegionTree.depth]
  | @join id l rt op o left right is js node _ _ _ ihl ihr =>
    have hnode : r.node? id = some (.branch op l (some rt) o) := node
    simp only [RegionTree.depth] at hfuel
    obtain ⟨n, rfl⟩ : ∃ n, fuel = n + 1 := ⟨fuel - 1, by omega⟩
    have hl : r.depthFrom n l = left.depth := ihl (by omega)
    have hr : r.depthFrom n rt = right.depth := ihr (by omega)
    simp [depthFrom, hnode, RegionNode.children, hl, hr, RegionTree.depth, Nat.add_comm]
  | @complement id c o operand is node _ ih =>
    have hnode : r.node? id = some (.branch .complement c none o) := node
    simp only [RegionTree.depth] at hfuel
    obtain ⟨n, rfl⟩ : ∃ n, fuel = n + 1 := ⟨fuel - 1, by omega⟩
    have hc : r.depthFrom n c = operand.depth := ih (by omega)
    simp [depthFrom, hnode, RegionNode.children, hc, RegionTree.depth, Nat.add_comm]

end Spans

namespace IsTree

/-- The depth of a region is that of its tree. -/
theorem depth_eq (h : r.IsTree x) : r.depth = x.depth := by
  obtain ⟨ids, hspans, hnodup⟩ := h
  exact hspans.depthFrom_eq (hspans.depth_le_size hnodup)

/-- Without an operator on top there is nothing but a side. -/
theorem exists_unit (h : r.IsTree x) (hop : r.op? = none) : ∃ s, x = .unit s := by
  obtain ⟨ids, hspans, -⟩ := h
  cases hspans with
  | unit => exact ⟨_, rfl⟩
  | @join _ l rt op o _ _ _ _ node =>
    have hnode : r.node? r.root = some (.branch op l (some rt) o) := node
    simp [op?, hnode] at hop
  | @complement _ c o _ _ node =>
    have hnode : r.node? r.root = some (.branch .complement c none o) := node
    simp [op?, hnode] at hop

end IsTree

/-! ## Arenas without other nodes -/

/-- The nodes of the arena make up the tree, and there are no others. -/
structure Fills (r : Region) (x : RegionTree) : Prop where
  isTree : r.IsTree x
  size_eq : r.size = x.count

/-- Only the nodes of the tree are copied. -/
theorem size_copyBehind (h : r.IsTree x) (nodes : Array RegionNode) (keepOrigins : Bool) :
    (r.copyBehind nodes keepOrigins).1.size = nodes.size + x.count := by
  obtain ⟨hspans, -⟩ := h.exists_walk
  have hcopies : (r.walk.filterMap fun id ↦ (r.node? id).map
      (copyNode (placeTable r.size nodes.size r.walk) keepOrigins)).length = r.walk.length := by
    rw [List.length_filterMap_eq_countP, List.countP_eq_length]
    intro i hi
    obtain ⟨n, hn⟩ := hspans.exists_node i hi
    have hnode : r.node? i = some n := hn
    rw [hnode]
    rfl
  simp [copyBehind, hcopies, hspans.length_eq]

namespace Fills

/-- The region of one side fills its arena. -/
theorem ofSide (s : Side) : (Region.ofSide s).Fills (.unit s) :=
  have hlinked : (Region.ofSide s).Linked (fun _ _ ↦ True) _ := .ofSide s
  ⟨hlinked.isTree, rfl⟩

/-- The outside of a cell fills its arena. -/
theorem outsideCell (n : Int) : (Region.outsideCell n).Fills (.complement (.unit (.cell n))) :=
  have hlinked : (Region.outsideCell n).Linked (fun _ _ ↦ True) _ := .outsideCell n
  ⟨hlinked.isTree, rfl⟩

theorem setCell (h : r.Fills x) (cell : Option Int) : (r.setCell cell).Fills x :=
  ⟨h.isTree, h.size_eq⟩

/-- A compacted region fills its arena. -/
theorem compact (h : r.Fills x) : r.compact.Fills x := by
  refine ⟨h.isTree.linked.compact.isTree, ?_⟩
  have hsize := size_copyBehind h.isTree #[] true
  rwa [Array.size_empty, Nat.zero_add] at hsize

theorem detached (h : r.Fills x) : r.detached.Fills x := by
  have hlinked : r.detached.Linked (fun _ _ ↦ True) x := h.isTree.linked.detached
  refine ⟨hlinked.isTree, ?_⟩
  have hsize := size_copyBehind h.isTree #[] false
  rwa [Array.size_empty, Nat.zero_add] at hsize

/-- Appending copies one node for each node of the tree. -/
theorem size_append (hb : b.Fills y) (a : Region) : (a.append b).1.nodes.size = a.size + y.count :=
  size_copyBehind hb.isTree a.nodes _

/-- A union or an intersection of regions that fill their arenas fills its own. -/
theorem combine {op : RegionOp} (hop : op ≠ .complement) (ha : a.Fills x) (hb : b.Fills y) :
    (Region.combine op a b).Fills (.join op x y) := by
  refine ⟨(ha.isTree.linked.combine hop hb.isTree.linked).isTree, ?_⟩
  have hsize : (Region.combine op a b).size = (a.compact.append b).1.nodes.size + 1 :=
    Array.size_push _
  rw [hsize, hb.size_append, ha.compact.size_eq]
  rfl

/-- The complement of a region that fills its arena fills its own. -/
theorem complement (h : r.Fills x) : r.complement.Fills (.complement x) := by
  refine ⟨h.isTree.linked.complement.isTree, ?_⟩
  have hsize : r.complement.size = r.compact.size + 1 := Array.size_push _
  rw [hsize, h.compact.size_eq]
  rfl

/-- A graft of regions that fill their arenas fills its own. -/
theorem graft {op : RegionOp} (hop : op ≠ .complement) (ha : a.Fills x) (hb : b.Fills y) :
    (Region.graft op a b).Fills (x.graft op y) := by
  refine ⟨(ha.isTree.linked.graft hop hb.isTree.linked).isTree, ?_⟩
  have hsize : (Region.graft op a b).size = (a.append b).1.nodes.size + 1 := by
    unfold Region.graft
    dsimp only
    split <;> simp [size]
  rw [hsize, hb.size_append, ha.size_eq, RegionTree.count_graft]

end Fills

/-! ## Reading -/

/-- Every entry as a strand of its own. -/
def entryStrands (g : Geometry) : List (List Nat) := (List.range g.size).map ([·])

/-- An entry is the head of its own strand. -/
theorem heads_entryStrands {i : Nat} (h : i < g.size) (c : Bool) :
    Geometry.Heads (entryStrands g) c i :=
  ⟨[i], List.mem_map.mpr ⟨i, List.mem_range.mpr h, rfl⟩, rfl, fun _ ↦ rfl⟩

theorem lt_size_of_some {e : GeometryEntry} (h : g.entry? id = some e) : id < g.size :=
  (Array.getElem?_eq_some_iff.mp h).1

/-- What is read from an entry is a proper tree behind the nodes that were there. -/
structure ReadBehind (g : Geometry) (id : Nat) (nodes nodes' : Array RegionNode) (top : Nat)
    (x : RegionTree) : Prop where
  put : PutBehind (entryStrands g) (some id) nodes nodes' top x
  size_eq : nodes'.size = nodes.size + x.count
  proper : x.IsProper
  lt_size : id < g.size

/-- A run pushes as many nodes as its tree has. -/
theorem size_pushRun {ns : List Int} (h : pushRun nodes ns = some (nodes', top))
    (hx : RegionTree.ofNumbers? ns = some x) : nodes'.size = nodes.size + x.count := by
  cases ns with
  | nil => cases h
  | cons n ns =>
    induction ns using List.reverseRecOn generalizing nodes' top x with
    | nil =>
      obtain ⟨rfl, -⟩ := Prod.mk.inj (Option.some.inj h)
      obtain rfl := Option.some.inj hx
      exact Array.size_push _
    | append_singleton ns m ih =>
      rw [pushRun_concat] at h
      rw [RegionTree.ofNumbers?_concat] at hx
      obtain ⟨⟨nodes₁, top₁⟩, hrun, heq⟩ := Option.map_eq_some_iff.mp h
      obtain ⟨y, hy, rfl⟩ := Option.map_eq_some_iff.mp hx
      obtain ⟨rfl, -⟩ := Prod.mk.inj heq
      rw [Array.size_push, Array.size_push, ih hrun hy]
      rfl

namespace ReadBehind

/-- A run of surfaces is read behind the entry that it is linked to. -/
theorem exists_run {ns : List Int} {nodes₁ : Array RegionNode}
    (h : pushRun nodes ns = some (nodes₁, top)) (hid : id < g.size) :
    ∃ x, ReadBehind g id nodes (setOriginAt nodes₁ top id) top x := by
  cases ns with
  | nil => cases h
  | cons n ns =>
    obtain ⟨nodes₂, top₂, x, hrun, hx, hput⟩ := pushRun_spec nodes n ns
    obtain ⟨rfl, rfl⟩ := Prod.mk.inj (Option.some.inj (h.symm.trans hrun))
    refine ⟨x, (hput.setOrigin id).mono (List.nil_subset _), ?_,
      RegionTree.isProper_of_ofNumbers? hx, hid⟩
    rw [setOriginAt, Array.size_modify, size_pushRun h hx]

/-- Parentheses link what is inside them to the outer entry. -/
theorem group {c : Nat} (h : ReadBehind g c nodes nodes' top x) (hid : id < g.size) :
    ReadBehind g id nodes (setOriginAt nodes' top id) top x where
  put := h.put.setOrigin id
  size_eq := by rw [setOriginAt, Array.size_modify, h.size_eq]
  proper := h.proper
  lt_size := hid

/-- A complement is read on top of its operand. -/
theorem complement {c : Nat} (h : ReadBehind g c nodes nodes' top x) (hid : id < g.size) :
    ReadBehind g id nodes (nodes'.push (.branch .complement top none (some id))) nodes'.size
      (.complement x) where
  put := h.put.complement (by rintro _ ⟨⟩; exact heads_entryStrands h.lt_size _) _
  size_eq := by
    rw [Array.size_push, h.size_eq]
    rfl
  proper := .inl h.proper
  lt_size := hid

/-- The outside of a cell is read on top of the leaf with the number of the cell. -/
theorem complementCell {c : Nat} (nodes : Array RegionNode) (n : Int) (hc : c < g.size)
    (hid : id < g.size) : ReadBehind g id nodes
      ((nodes.push (.unit (.cell n) (some c))).push (.branch .complement nodes.size none (some id)))
      (nodes.size + 1) (.complement (.unit (.cell n))) where
  put := .complementCell nodes n (List.mem_map.mpr ⟨c, List.mem_range.mpr hc, rfl⟩) _
  size_eq := by
    rw [Array.size_push, Array.size_push]
    rfl
  proper := .inr ⟨n, rfl⟩
  lt_size := hid

/-- Two operands are read one behind the other, with their join on top. -/
theorem join {l rt topl topr : Nat} {nodes₁ nodes₂ : Array RegionNode} {op : RegionOp}
    (hop : op ≠ .complement) (hl : ReadBehind g l nodes nodes₁ topl x)
    (hr : ReadBehind g rt nodes₁ nodes₂ topr y) (hid : id < g.size) :
    ReadBehind g id nodes (nodes₂.push (.branch op topl (some topr) (some id))) nodes₂.size
      (.join op x y) where
  put := by
    refine (hl.put.join hop hr.put ?_ ?_ _).mono
      (List.append_subset.mpr ⟨List.Subset.refl _, List.Subset.refl _⟩)
    · rintro _ ⟨⟩
      exact heads_entryStrands hl.lt_size _
    · rintro _ ⟨⟩
      exact heads_entryStrands hr.lt_size _
  size_eq := by
    rw [Array.size_push, hr.size_eq, hl.size_eq]
    simp only [RegionTree.count]
    omega
  proper := ⟨hl.proper, hr.proper⟩
  lt_size := hid

end ReadBehind

/-- Whatever the geometry, an entry that can be read is read as a proper tree. -/
theorem readBehind_of_readEntry {fuel : Nat} (h : readEntry g fuel id nodes = .ok (nodes', top)) :
    ∃ x, ReadBehind g id nodes nodes' top x := by
  induction fuel generalizing id nodes nodes' top with
  | zero => cases h
  | succ fuel ih =>
    unfold readEntry at h
    split at h
    · cases h
    · next f entry =>
      obtain ⟨n, -, hread⟩ := exists_of_bind_ok h
      cases hread
      exact ⟨_, .unit _ _ rfl, Array.size_push _, ⟨n, rfl⟩, lt_size_of_some entry⟩
    · next s entry =>
      split at h
      · cases h
      · next hrun =>
        cases h
        exact ReadBehind.exists_run hrun (lt_size_of_some entry)
    · next b entry =>
      have hid := lt_size_of_some entry
      split at h
      · obtain ⟨⟨nodes₁, inner⟩, hinner, hread⟩ := exists_of_bind_ok h
        cases hread
        obtain ⟨x, hx⟩ := ih hinner
        exact ⟨x, hx.group hid⟩
      · split at h
        · next f hleaf =>
          obtain ⟨n, -, hread⟩ := exists_of_bind_ok h
          cases hread
          rw [Array.size_push]
          exact ⟨_, .complementCell nodes n (lt_size_of_some hleaf) hid⟩
        · obtain ⟨⟨nodes₁, operand⟩, hoperand, hread⟩ := exists_of_bind_ok h
          cases hread
          obtain ⟨x, hx⟩ := ih hoperand
          exact ⟨_, hx.complement hid⟩
      all_goals
        split at h
        · cases h
        obtain ⟨⟨nodes₁, l⟩, hl, h⟩ := exists_of_bind_ok h
        obtain ⟨⟨nodes₂, r⟩, hr, hread⟩ := exists_of_bind_ok h
        cases hread
        obtain ⟨x, hx⟩ := ih hl
        obtain ⟨y, hy⟩ := ih hr
        refine ⟨_, hx.join ?_ hy hid⟩
        split_ifs <;> decide

/-- What is read from a geometry fills its arena with a proper tree. -/
theorem fills_of_ofGeometry (h : ofGeometry g = .ok r) : ∃ x, r.Fills x ∧ x.IsProper := by
  unfold ofGeometry at h
  split_ifs at h
  obtain ⟨⟨nodes, root⟩, hread, h⟩ := exists_of_bind_ok h
  cases h
  obtain ⟨x, hx⟩ := readBehind_of_readEntry hread
  obtain ⟨ids, hspans, hnodup, -⟩ := hx.put.spans
  have hsize := hx.size_eq
  rw [Array.size_empty, Nat.zero_add] at hsize
  exact ⟨x, ⟨⟨ids, hspans, hnodup⟩, hsize⟩, hx.proper⟩

/-! ## Operations -/

/-- Regions that the operations come to, from sides of some kind and from geometries. -/
inductive Made (S : Side → Prop) : Region → Prop where
  | ofSide {s : Side} (side : S s) : Made S (.ofSide s)
  | outsideCell (n : Int) : Made S (.outsideCell n)
  | read {g : Geometry} {r : Region} (read : ofGeometry g = .ok r) : Made S r
  | setCell {r : Region} (h : Made S r) (cell : Option Int) : Made S (r.setCell cell)
  | compact {r : Region} (h : Made S r) : Made S r.compact
  | detached {r : Region} (h : Made S r) : Made S r.detached
  | and {a b : Region} (left : Made S a) (right : Made S b) : Made S (a.and b)
  | or {a b : Region} (left : Made S a) (right : Made S b) : Made S (a.or b)
  | complement {r : Region} (h : Made S r) : Made S r.complement
  | andWith {a b : Region} (left : Made S a) (right : Made S b) : Made S (a.andWith b)
  | orWith {a b : Region} (left : Made S a) (right : Made S b) : Made S (a.orWith b)

variable {S : Side → Prop}

/-- From sides of surfaces and geometries nothing but proper trees are made. -/
theorem Made.fills (h : Made S r) :
    ∃ x, r.Fills x ∧ ((∀ s, S s → ∃ n, s = .surface n) → x.IsProper) := by
  have hand : RegionOp.and ≠ .complement := by decide
  have hor : RegionOp.or ≠ .complement := by decide
  induction h with
  | ofSide side => exact ⟨_, .ofSide _, fun hS ↦ hS _ side⟩
  | outsideCell n => exact ⟨_, .outsideCell n, fun _ ↦ .inr ⟨n, rfl⟩⟩
  | read read =>
    obtain ⟨x, hx, hproper⟩ := fills_of_ofGeometry read
    exact ⟨x, hx, fun _ ↦ hproper⟩
  | setCell _ cell ih =>
    obtain ⟨x, hx, hproper⟩ := ih
    exact ⟨x, hx.setCell cell, hproper⟩
  | compact _ ih =>
    obtain ⟨x, hx, hproper⟩ := ih
    exact ⟨x, hx.compact, hproper⟩
  | detached _ ih =>
    obtain ⟨x, hx, hproper⟩ := ih
    exact ⟨x, hx.detached, hproper⟩
  | complement _ ih =>
    obtain ⟨x, hx, hproper⟩ := ih
    exact ⟨_, hx.complement, fun hS ↦ .inl (hproper hS)⟩
  | and _ _ ihl ihr =>
    obtain ⟨x, hx, hproperx⟩ := ihl
    obtain ⟨y, hy, hpropery⟩ := ihr
    exact ⟨_, hx.combine hand hy, fun hS ↦ ⟨hproperx hS, hpropery hS⟩⟩
  | or _ _ ihl ihr =>
    obtain ⟨x, hx, hproperx⟩ := ihl
    obtain ⟨y, hy, hpropery⟩ := ihr
    exact ⟨_, hx.combine hor hy, fun hS ↦ ⟨hproperx hS, hpropery hS⟩⟩
  | andWith _ _ ihl ihr =>
    obtain ⟨x, hx, hproperx⟩ := ihl
    obtain ⟨y, hy, hpropery⟩ := ihr
    exact ⟨_, hx.graft hand hy, fun hS ↦ (hproperx hS).graft _ (hpropery hS)⟩
  | orWith _ _ ihl ihr =>
    obtain ⟨x, hx, hproperx⟩ := ihl
    obtain ⟨y, hy, hpropery⟩ := ihr
    exact ⟨_, hx.graft hor hy, fun hS ↦ (hproperx hS).graft _ (hpropery hS)⟩

/-- The sides of one region and then those of another, with a meaning that comes from theirs. -/
structure IsJoin (f : Bool → Bool → Bool) (a b r : Region) : Prop where
  sides_eq : r.sides = a.sides ++ b.sides
  leafCount_eq : r.leafCount = a.leafCount + b.leafCount
  holds_eq : ∀ inside, r.holds inside = f (a.holds inside) (b.holds inside)

/-- The meaning of an operator that joins two regions. -/
def connective (op : RegionOp) (p q : Bool) : Bool := if op = .or then p || q else p && q

/-- A region whose tree agrees with the joined trees is the join of both regions. -/
theorem isJoin_of_agrees {op : RegionOp} {z : RegionTree} (ha : a.IsTree x) (hb : b.IsTree y)
    (hr : r.IsTree z) (hz : z.Agrees (.join op x y)) : IsJoin (connective op) a b r := by
  have hsides : r.sides = a.sides ++ b.sides := by
    rw [hr.sides_eq, hz.sides_eq, ha.sides_eq, hb.sides_eq]
    rfl
  refine ⟨hsides, ?_, fun inside ↦ ?_⟩
  · rw [leafCount, hsides, List.length_append]
    rfl
  · rw [hr.holds_eq, hz.holds_eq, ha.holds_eq, hb.holds_eq]
    rfl

/-- Combining two regions joins them. -/
theorem Fills.isJoin_combine {op : RegionOp} (hop : op ≠ .complement) (ha : a.Fills x)
    (hb : b.Fills y) : IsJoin (connective op) a b (Region.combine op a b) :=
  isJoin_of_agrees ha.isTree hb.isTree (ha.combine hop hb).isTree (.refl _)

/-- Grafting one region onto another joins them. -/
theorem Fills.isJoin_graft {op : RegionOp} (hop : op ≠ .complement) (ha : a.Fills x)
    (hb : b.Fills y) : IsJoin (connective op) a b (Region.graft op a b) :=
  isJoin_of_agrees ha.isTree hb.isTree (ha.graft hop hb).isTree (RegionTree.agrees_graft op x y)

/-- A graft is no deeper than both regions together. -/
theorem Fills.depth_graft_le {op : RegionOp} (hop : op ≠ .complement) (ha : a.Fills x)
    (hb : b.Fills y) : (Region.graft op a b).depth ≤ a.depth + b.depth := by
  rw [(ha.graft hop hb).isTree.depth_eq, ha.isTree.depth_eq, hb.isTree.depth_eq]
  exact RegionTree.depth_graft_le op x y

/-- Intersection, union and complement mean what they say, on top and in place. -/
theorem Made.operations (ha : Made S a) (hb : Made S b) :
    IsJoin Bool.and a b (a.and b) ∧ IsJoin Bool.and a b (a.andWith b) ∧
      IsJoin Bool.or a b (a.or b) ∧ IsJoin Bool.or a b (a.orWith b) ∧
        (∀ inside, a.complement.holds inside = !a.holds inside) ∧
          (b.op? = none → (a.andWith b).depth ≤ a.depth + 1 ∧
          (a.orWith b).depth ≤ a.depth + 1) := by
  obtain ⟨x, hx, -⟩ := ha.fills
  obtain ⟨y, hy, -⟩ := hb.fills
  have hand : RegionOp.and ≠ .complement := by decide
  have hor : RegionOp.or ≠ .complement := by decide
  refine ⟨hx.isJoin_combine hand hy, hx.isJoin_graft hand hy, hx.isJoin_combine hor hy,
    hx.isJoin_graft hor hy, fun inside ↦ ?_, fun hop ↦ ?_⟩
  · rw [hx.complement.isTree.holds_eq, hx.isTree.holds_eq]
    rfl
  · obtain ⟨s, rfl⟩ := hy.isTree.exists_unit hop
    have hdepth : b.depth = 1 := hy.isTree.depth_eq
    rw [← hdepth]
    exact ⟨hx.depth_graft_le hand hy, hx.depth_graft_le hor hy⟩

/-- A union is narrowed by one side of a surface: the side goes on top of it. -/
theorem operations_of_union :
    let a := (surface (-1)).or ((outsideCell 3).andWith (surface 2))
    let b := surface 5
    Made (fun _ ↦ True) a ∧ Made (fun _ ↦ True) b ∧ b.op? = none ∧
      IsJoin Bool.and a b (a.and b) ∧ IsJoin Bool.and a b (a.andWith b) ∧
        IsJoin Bool.or a b (a.or b) ∧ IsJoin Bool.or a b (a.orWith b) ∧
          (∀ inside, a.complement.holds inside = !a.holds inside) ∧
            (a.andWith b).depth ≤ a.depth + 1 ∧ (a.orWith b).depth ≤ a.depth + 1 := by
  have ha : Made (fun _ ↦ True) ((surface (-1)).or ((outsideCell 3).andWith (surface 2))) :=
    .or (.ofSide trivial) (.andWith (.outsideCell 3) (.ofSide trivial))
  have hb : Made (fun _ ↦ True) (surface 5) := .ofSide trivial
  obtain ⟨hand, handWith, hor, horWith, hcomplement, hdepth⟩ := Made.operations ha hb
  exact ⟨ha, hb, rfl, hand, handWith, hor, horWith, hcomplement, hdepth rfl⟩

end Region

end TransportDeck
