import TransportDeck.Proofs.Region.NarrowedTrees
import TransportDeck.Proofs.Region.Scratch

/-!
# Operands behind a chain

An operand that is joined in place to a region that was read is written behind the last operand of
the chain at the top.  Of the entries that were there only the one above that operand changes.  If
the chain ends with a run of more than one number, the last of these is joined to the operand, and
the run is spelled out.
-/

namespace TransportDeck

namespace Region

open TransportDeck.Geometry

variable {g g' g₁ : Geometry} {nodes : Array RegionNode} {r : Region} {tree : GeometryTree}
  {o i j k k' l m new last place : Nat}
  {os ls cs claimed : List Nat} {fuel : Nat} {side : Side} {mark : Layout}

/-! ## Where a chain ends -/

/-- A chain ends at a node that is no intersection. -/
theorem chainEnd_eq_self {n : RegionNode} (node : r.nodes[i]? = some n)
    (hn : ∀ l m o, n ≠ .branch .and l m o) (fuel : Nat) (parent : Option Nat) :
    r.chainEnd .and fuel parent i = (parent, i) := by
  have hnode : r.node? i = some n := node
  cases fuel with
  | zero => rfl
  | succ fuel =>
    rw [chainEnd, hnode]
    cases n with
    | unit => rfl
    | branch op l m o =>
      cases m with
      | none => rfl
      | some m => exact if_neg fun hop ↦ hn l (some m) o (by rw [hop])

/-- At an intersection the chain goes on to the right. -/
theorem chainEnd_succ {right : Nat} {origin : Option Nat}
    (node : r.nodes[i]? = some (.branch .and l (some right) origin)) (fuel : Nat)
    (parent : Option Nat) :
    r.chainEnd .and (fuel + 1) parent i = r.chainEnd .and fuel (some i) right := by
  have hnode : r.node? i = some (.branch .and l (some right) origin) := node
  rw [chainEnd, hnode]
  exact if_pos rfl

/-- The chain of a region that shows something else than a chain ends at once. -/
theorem Shows.chainEnd_eq_self (h : Shows g nodes tree o i os) (hchain : tree.isChain = false)
    (hnode : r.nodes[i]? = nodes[i]?) (fuel : Nat) (parent : Option Nat) :
    r.chainEnd .and fuel parent i = (parent, i) := by
  induction h with
  | leaf _ _ node => exact Region.chainEnd_eq_self (hnode.trans node) (by simp) ..
  | run _ _ _ numbers chain =>
    obtain ⟨n, rfl⟩ := RegionTree.exists_unit_of_ofNumbers? numbers
      (Nat.not_lt.mp (of_decide_eq_false hchain))
    cases chain with
    | unit node => exact Region.chainEnd_eq_self (hnode.trans node) (by simp) ..
  | @binary op _ _ _ _ _ _ _ _ _ _ _ _ isBinary node =>
    cases op with
    | intersection => cases hchain
    | union => exact Region.chainEnd_eq_self (hnode.trans node) (by simp) ..
    | complement | group => cases isBinary
  | cell _ _ _ node => exact Region.chainEnd_eq_self (hnode.trans node) (by simp) ..
  | complement _ _ node => exact Region.chainEnd_eq_self (hnode.trans node) (by simp) ..
  | group _ _ ih => exact ih hchain hnode

/-! ## Writing along the chain -/

/-- The join of what was there and a new side. -/
theorem emit_join (node : r.nodes[new]? = some (.branch .and last (some place) none))
    (operand : r.nodes[place]? = some (.unit side none))
    (hlast : r.emit (fuel + 1) last ⟨g, claimed⟩ = (k, ⟨g₁, cs⟩))
    (hwrap : r.wrapOperand .and last (k, ⟨g₁, cs⟩) = (k', ⟨g', cs⟩)) :
    r.emit (fuel + 2) new ⟨g, claimed⟩ = (g'.size + 1, ⟨g'.joined (newLeaf side) k', cs⟩) := by
  have hnode : r.node? new = some (.branch .and last (some place) none) := node
  have hoperand : r.node? place = some (.unit side none) := operand
  have hunion : r.isUnionAt place = false := by rw [isUnionAt, hoperand]
  have hside : r.emit (fuel + 1) place ⟨g', cs⟩ = (g'.size, ⟨g'.push (newLeaf side), cs⟩) := by
    simp only [emit, hoperand, RegionNode.origin, Draft.claim, Draft.target?,
      Option.map_none, Option.filter_none]
    rfl
  have hbare : r.wrapOperand .and place (g'.size, ⟨g'.push (newLeaf side), cs⟩) =
      (g'.size, ⟨g'.push (newLeaf side), cs⟩) := by
    simp [wrapOperand, hunion]
  rw [emit, hnode]
  simp only [RegionNode.origin, Draft.claim, Draft.target?, Option.map_none, Option.filter_none,
    hlast, hwrap, hside, hbare]
  have hsize : (g'.push (newLeaf side)).size = g'.size + 1 := size_push _ _
  simp only [writeBinary, Draft.push, hsize]
  rfl

/-- A link of the chain takes up what its right operand has become. -/
theorem emit_link (node : r.nodes[i]? = some (.branch .and j (some m) (some o))) (ho : o < g.size)
    (hfree : o ∉ claimed)
    (entry : g.entry? (peel g g.size o) = some (.branch (.binary .intersection l mark k)))
    (hleft : r.emit fuel j ⟨g, o :: claimed⟩ = (l, ⟨g, cs⟩))
    (hwrapl : r.wrapOperand .and j (l, ⟨g, cs⟩) = (l, ⟨g, cs⟩)) {ds : List Nat}
    (hright : r.emit fuel m ⟨g, cs⟩ = (k', ⟨g', ds⟩))
    (hwrapr : r.wrapOperand .and m (k', ⟨g', ds⟩) = (k', ⟨g', ds⟩)) {b : Branch}
    (entry' : g'.entry? (peel g g.size o) = some (.branch b)) (hb : b.op.isBinary = true) :
    r.emit (fuel + 1) i ⟨g, claimed⟩ =
      (o, ⟨g'.modify (peel g g.size o) (setOperands .intersection l k'), ds⟩) := by
  have hnode : r.node? i = some (.branch .and j (some m) (some o)) := node
  have hclaim := claim_of_free ho hfree
  have hkept : r.isKeptRun i ⟨g, o :: claimed⟩ ⟨o, peel g g.size o⟩ = false :=
    isKeptRun_eq_false entry (by simp)
  have hentry : (⟨g', ds⟩ : Draft).entryAt? (some ⟨o, peel g g.size o⟩) = some (.branch b) := entry'
  simp only [emit, hnode, RegionNode.origin, hclaim, Draft.target?, Option.map_some,
    Option.filter_some, hkept, Bool.false_eq_true, if_false, hleft, hwrapl, hright, hwrapr,
    writeBinary, hentry, if_pos hb, reduceCtorEq]
  rfl

/-! ## Frames -/

/-- Only the nodes of the region that a tree shows matter. -/
theorem Shows.congr_of_spans {nodes' : Array RegionNode} {x : RegionTree} {ids : List Nat}
    (h : Shows g nodes tree o i os) (hspans : Spans nodes i x ids)
    (hnodes : ∀ j ∈ ids, nodes'[j]? = nodes[j]?) :
    Shows g nodes' tree o i os := by
  induction h generalizing x ids with
  | leaf entry number node => exact .leaf entry number ((hnodes _ hspans.mem).trans node)
  | run entry node origin numbers chain nodup le bare =>
    obtain ⟨-, rfl⟩ := chain.unique hspans
    exact .run entry ((hnodes _ hspans.mem).trans node) origin numbers (chain.congr hnodes) nodup le
      fun k hk hne m hm ↦ bare k hk hne m (hnodes k hk ▸ hm)
  | @binary op l k o i j m mark left right ls ks entry isBinary node ltl ltr _ _ ihl ihr =>
    cases hspans with
    | unit node' => cases Option.some.inj (node.symm.trans node')
    | complement node' =>
      have hnode := Option.some.inj (node.symm.trans node')
      split_ifs at hnode <;> cases hnode
    | join node' _ hl hr =>
      obtain ⟨⟩ := Option.some.inj (node.symm.trans node')
      exact .binary entry isBinary ((hnodes _ List.mem_cons_self).trans node) ltl ltr
        (ihl hl fun a ha ↦ hnodes a (by simp [ha])) (ihr hr fun a ha ↦ hnodes a (by simp [ha]))
  | cell entry inner number node lt below =>
    cases hspans with
    | unit node' => cases Option.some.inj (node.symm.trans node')
    | join node' => cases Option.some.inj (node.symm.trans node')
    | complement node' hbelow =>
      cases Option.some.inj (node.symm.trans node')
      exact .cell entry inner number ((hnodes _ List.mem_cons_self).trans node) lt
        ((hnodes _ (List.mem_cons_of_mem _ hbelow.mem)).trans below)
  | complement entry noLeaf node lt _ ih =>
    cases hspans with
    | unit node' => cases Option.some.inj (node.symm.trans node')
    | join node' => cases Option.some.inj (node.symm.trans node')
    | complement node' hbelow =>
      cases Option.some.inj (node.symm.trans node')
      exact .complement entry noLeaf ((hnodes _ List.mem_cons_self).trans node) lt
        (ih hbelow fun a ha ↦ hnodes a (List.mem_cons_of_mem _ ha))
  | group isGroup _ ih => exact .group isGroup (ih hspans hnodes)

/-- A region in which the node `q` has a new right operand, the join of its last one and a side of a
surface. -/
structure Joined (nodes : Array RegionNode) (ids : List Nat) (q last : Nat) (n : Int) (r : Region)
    (new place : Nat) : Prop where
  frame : ∀ j ∈ ids, j ≠ q → r.nodes[j]? = nodes[j]?
  link : r.nodes[q]? = nodes[q]?.map (setRight new)
  node : r.nodes[new]? = some (.branch .and last (some place) none)
  operand : r.nodes[place]? = some (.unit (.surface n) none)

theorem Joined.mono {ids ids' : List Nat} {q : Nat} {n : Int}
    (h : Joined nodes ids q last n r new place) (hsub : ids' ⊆ ids) :
    Joined nodes ids' q last n r new place :=
  ⟨fun j hj ↦ h.frame j (hsub hj), h.link, h.node, h.operand⟩

theorem isUnionAt_of_and {r : Region} {a : Nat} {b o : Option Nat}
    (h : r.nodes[i]? = some (.branch .and a b o)) : r.isUnionAt i = false := by
  have hnode : r.node? i = some (.branch .and a b o) := h
  rw [isUnionAt, hnode]

theorem wrapOperand_and_of_not_union {w : Nat × Draft} (h : r.isUnionAt i = false) :
    r.wrapOperand .and i w = w :=
  wrapOperand_eq_self fun _ hunion ↦ absurd hunion (by simp [h])

/-- Where the chain of a tree ends: the node above its last operand, and what the geometry becomes
when a side of a surface is joined to that. -/
structure ChainEnd (g g' : Geometry) (nodes : Array RegionNode) (tree : GeometryTree) (n : Int)
    (o i id : Nat) (os ids places : List Nat) (q last : Nat) : Prop where
  top : ∃ a b c, nodes[i]? = some (.branch .and a (some b) c)
  top_mem : i ∈ ids
  mem : q ∈ ids
  found : ∀ r : Region, (∀ j ∈ ids, r.nodes[j]? = nodes[j]?) → ∀ fuel parent, i < fuel →
    r.chainEnd .and fuel parent i = (some q, last)
  emit : ∀ (r : Region) (new place : Nat), Joined nodes ids q last n r new place →
    ∀ fuel claimed, i + 2 < fuel → (∀ a ∈ o :: os, a ∉ claimed) →
      ∃ cs, r.emit fuel i ⟨g, claimed⟩ = (o, ⟨g', cs⟩)
  narrowed : Narrowed g g' tree n id places

/-- Every region with these nodes writes what they show as it stands, as an operand of an
intersection. -/
def KeepsOperand (g : Geometry) (nodes : Array RegionNode) (o i : Nat) (os ids : List Nat) : Prop :=
  ∀ r : Region, (∀ a ∈ ids, r.nodes[a]? = nodes[a]?) → ∀ fuel claimed, i < fuel →
    (∀ a ∈ o :: os, a ∉ claimed) → r.emit fuel i ⟨g, claimed⟩ =
    (o, ⟨g, (o :: os).reverse ++ claimed⟩) ∧
      ∀ cs, r.wrapOperand .and i (o, ⟨g, cs⟩) = (o, ⟨g, cs⟩)

theorem Shows.keepsOperand {x : RegionTree} {ids : List Nat} (h : Shows g nodes tree o i os)
    (htree : tree.IsBracketed) (hunion : tree.isUnion = false)
    (hnames : g.NamesCells) (hspans : Spans nodes i x ids) (hlt : ∀ a ∈ o :: os, a < g.size)
    (hnodup : (o :: os).Nodup) : KeepsOperand g nodes o i os ids := by
  intro r hnodes fuel claimed hfuel hfree
  have hshows := h.congr_of_spans hspans hnodes
  exact ⟨hshows.leavesAlone htree hnames hlt hnodup hfuel claimed hfree,
    fun cs ↦ wrapOperand_eq_self fun _ ↦ hshows.isGroup_of_isUnionAt hunion⟩

/-! ## Runs at the end of a chain -/

/-- A run of more than one number is shown by an intersection with the last number on the right, and
only that comes from an entry. -/
structure RunLink (g : Geometry) (nodes : Array RegionNode) (s : Shorthand) (o i j m : Nat)
    (x : RegionTree) (w : Int) (ids : List Nat) : Prop where
  entry : g.entry? (peel g g.size o) = some (.run s)
  length : 1 < s.numbers.length
  numbers : RegionTree.ofNumbers? s.numbers = some (.join .and x (.unit (.surface w)))
  node : nodes[i]? = some (.branch .and j (some m) (some o))
  chain : Spans nodes j x ids
  last : nodes[m]? = some (.unit (.surface w) none)
  bare : ∀ a ∈ ids, ∀ n ∈ nodes[a]?, n.origin = none
  nodup : (i :: (ids ++ [m])).Nodup
  depth_le : x.depth ≤ i

theorem Shows.exists_runLink {s : Shorthand} {x : RegionTree} {ids : List Nat}
    (h : Shows g nodes (.run s) o i os) (hspans : Spans nodes i x ids)
    (hlength : 1 < s.numbers.length) :
    ∃ j m y w js, ids = i :: (js ++ [m]) ∧ RunLink g nodes s o i j m y w js := by
  cases h with
  | run entry node origin numbers chain nodup le bare =>
  obtain ⟨rfl, rfl⟩ := hspans.unique chain
  obtain ⟨ms, w, y, -, -, rfl⟩ := RegionTree.exists_join_of_ofNumbers? numbers hlength
  cases hspans with
  | @join _ j m _ _ _ _ js _ hnode _ atLeft atRight =>
  cases atRight with
  | @unit _ _ q last =>
  obtain rfl := Option.some.inj (node.symm.trans hnode)
  obtain ⟨hi, hrest⟩ := List.nodup_cons.mp nodup
  rw [List.mem_append, List.mem_singleton, not_or] at hi
  have hbare (a : Nat) (ha : a ∈ js ++ [m]) : ∀ n ∈ nodes[a]?, n.origin = none :=
    bare a (List.mem_cons_of_mem _ ha) fun hai ↦ by simp_all
  obtain rfl : q = none := hbare m (by simp) _ last
  have hcount : js.length + 2 ≤ i + 1 := by
    have hsub : i :: (js ++ [m]) ⊆ List.range (i + 1) := fun a ha ↦
      List.mem_range.mpr (Nat.lt_succ_of_le (le a ha))
    simpa using (nodup.subperm hsub).length_le
  have hdepth := atLeft.depth_le
  exact ⟨j, m, y, w, js, rfl, entry, hlength, numbers, by rw [hnode, ← origin]; rfl, atLeft, last,
    fun a ha ↦ hbare a (List.mem_append_left _ ha), nodup, by omega⟩

namespace RunLink

variable {s : Shorthand} {x : RegionTree} {w : Int} {ids : List Nat}
  (h : RunLink g nodes s o i j m x w ids)
include h

/-- The chain ends with the last number. -/
theorem found (r : Region) (hr : ∀ a ∈ i :: (ids ++ [m]), r.nodes[a]? = nodes[a]?) (fuel : Nat)
    (parent : Option Nat) (hfuel : i < fuel) :
    r.chainEnd .and fuel parent i = (some i, m) := by
  obtain ⟨fuel, rfl⟩ : ∃ n, fuel = n + 1 := ⟨fuel - 1, by omega⟩
  rw [chainEnd_succ ((hr i List.mem_cons_self).trans h.node)]
  exact chainEnd_eq_self ((hr m (by simp)).trans h.last) (by simp) ..

/-- With one more side joined to the last one the run is spelled out. -/
theorem emit {n : Int} (hjoined : Joined nodes (i :: (ids ++ [m])) i m n r new place)
    (ho : o < g.size) (hfree : o ∉ claimed) (hfuel : i + 2 < fuel) :
    r.emit fuel i ⟨g, claimed⟩ = put (x.narrowedChain w n) ⟨g, o :: claimed⟩ := by
  obtain ⟨fuel, rfl⟩ : ∃ n, fuel = n + 1 := ⟨fuel - 1, by omega⟩
  have hi := (List.nodup_cons.mp h.nodup).1
  have hframe (a : Nat) (ha : a ∈ ids ++ [m]) : r.nodes[a]? = nodes[a]? :=
    hjoined.frame a (List.mem_cons_of_mem _ ha) (ne_of_mem_of_not_mem ha hi)
  have hnode : r.nodes[i]? = some (.branch .and j (some new) (some o)) := by
    rw [hjoined.link, h.node]
    rfl
  have hlast : r.nodes[m]? = some (.unit (.surface w) none) := (hframe m (by simp)).trans h.last
  have hl : Spans r.nodes j x ids := h.chain.congr fun a ha ↦ hframe a (by simp [ha])
  have hr : Spans r.nodes new (.join .and (.unit (.surface w)) (.unit (.surface n)))
      (new :: ([m] ++ [place])) :=
    .join hjoined.node (by decide) (.unit hlast) (.unit hjoined.operand)
  have hcount := RegionTree.length_sides_of_ofNumbers? h.numbers
  have hdepth := h.depth_le
  refine emit_of_changed_run hnode ho hfree h.entry hl hr ?_ ?_ ?_
  · simp only [RegionTree.sides, List.length_append, List.length_singleton] at hcount ⊢
    omega
  · rw [List.forall_mem_append]
    refine ⟨fun a ha n hn ↦ h.bare a ha n (hframe a (by simp [ha]) ▸ hn), ?_⟩
    simp [hjoined.node, hlast, hjoined.operand, RegionNode.origin]
  · simp only [RegionTree.depth]
    omega

/-- The run with the number behind it is written as the chain is. -/
theorem narrowText_eq (n : Int) (tol : Tolerance) :
    (GeometryTree.run s).narrowText n tol = (x.narrowedChain w n).written := by
  rw [RegionTree.written_narrowedChain h.numbers, GeometryTree.narrowText, if_pos h.length]

end RunLink

/-- A link of a chain: its node, and its entry with what stands there below it. -/
structure Link (g : Geometry) (nodes : Array RegionNode) (left : GeometryTree) (mark : Layout)
    (o i id j m l k : Nat) (ls ks ids js is ps : List Nat) : Prop where
  node : nodes[i]? = some (.branch .and j (some m) (some o))
  place_eq : peel g g.size o = id
  entry : g.entry? id = some (.branch (.binary .intersection l mark k))
  holdsLeft : g.Holds l left is
  lt_left : j < i
  lt_right : m < i
  origin_lt : o < g.size
  origins : (o :: (l :: ls ++ k :: ks)).Nodup
  nodup : (i :: (ids ++ js)).Nodup
  places : (is ++ ps ++ [id]).Nodup
  keepsLeft : KeepsOperand g nodes l j ls ids

namespace Link

variable {id q p : Nat} {ids js is ps ks : List Nat} {left right : GeometryTree}
  (h : Link g nodes left mark o i id j m l k ls ks ids js is ps)
include h

theorem emit {m' : Nat} (hnode : r.nodes[i]? = some (.branch .and j (some m') (some o)))
    (hframe : ∀ a ∈ ids, r.nodes[a]? = nodes[a]?) (hfuel : j < fuel)
    (hfree : ∀ a ∈ o :: (l :: ls ++ k :: ks), a ∉ claimed)
    (hright : ∀ cs, (∀ a ∈ k :: ks, a ∉ cs) → ∃ ds, r.emit fuel m' ⟨g, cs⟩ = (k', ⟨g', ds⟩))
    (hunion : r.isUnionAt m' = false) (entry' : g'.entry? id = g.entry? id) :
    ∃ ds, r.emit (fuel + 1) i ⟨g, claimed⟩ =
      (o, ⟨g'.modify id (setOperands .intersection l k'), ds⟩) := by
  rw [List.forall_mem_cons, List.forall_mem_append] at hfree
  obtain ⟨hfree, hfreel, hfreer⟩ := hfree
  obtain ⟨hnot, hrest⟩ := List.nodup_cons.mp h.origins
  rw [List.mem_append, not_or] at hnot
  have hapart := (List.nodup_append.mp hrest).2.2
  obtain ⟨hleft, hwrapl⟩ := h.keepsLeft r hframe fuel (o :: claimed) hfuel fun a ha ↦
    List.not_mem_cons_of_ne_of_not_mem (ne_of_mem_of_not_mem ha hnot.1) (hfreel a ha)
  obtain ⟨ds, hright⟩ := hright ((l :: ls).reverse ++ o :: claimed) fun a ha ↦ by
    rw [List.mem_append, List.mem_reverse, not_or]
    exact ⟨fun hal ↦ hapart a hal a ha rfl,
      List.not_mem_cons_of_ne_of_not_mem (ne_of_mem_of_not_mem ha hnot.2) (hfreer a ha)⟩
  have hentry : g.entry? (peel g g.size o) = some (.branch (.binary .intersection l mark k)) := by
    rw [h.place_eq, h.entry]
  have hentry' : g'.entry? (peel g g.size o) = some (.branch (.binary .intersection l mark k)) := by
    rw [h.place_eq, entry', h.entry]
  refine ⟨ds, ?_⟩
  have hlink := emit_link hnode h.origin_lt hfree hentry hleft (hwrapl _)
    hright (wrapOperand_and_of_not_union hunion) hentry' rfl
  rwa [h.place_eq] at hlink

/-- The chain ends where that of the right operand does, and the link takes up what has become of
it. -/
theorem chainEnd (hq : q = i ∨ q ∈ js)
    (hfound : ∀ r : Region, (∀ a ∈ js, r.nodes[a]? = nodes[a]?) → ∀ fuel, m < fuel →
      r.chainEnd .and fuel (some i) m = (some q, last))
    (hemit : ∀ (r : Region) (new place : Nat), Joined nodes (i :: js) q last n r new place →
      ∃ m', r.nodes[i]? = some (.branch .and j (some m') (some o)) ∧ r.isUnionAt m' = false ∧
        ∀ fuel cs, i + 1 < fuel → (∀ a ∈ k :: ks, a ∉ cs) →
          ∃ ds, r.emit fuel m' ⟨g, cs⟩ = (k', ⟨g', ds⟩))
    (hnarrowed : Narrowed g g' right n k' ps) :
    ChainEnd g (g'.modify id (setOperands .intersection l k')) nodes
      (.binary .intersection left mark right) n o i id (l :: ls ++ k :: ks) (i :: (ids ++ js))
      (is ++ ps ++ [id]) q last := by
  obtain ⟨hi, hnodes⟩ := List.nodup_cons.mp h.nodup
  rw [List.mem_append, not_or] at hi
  have hids : ∀ a ∈ ids, a ≠ q := by
    rintro a ha rfl
    rcases hq with rfl | hq
    · exact hi.1 ha
    · exact (List.nodup_append.mp hnodes).2.2 a ha a hq rfl
  have hlt := h.lt_left
  have hlt' := h.lt_right
  refine ⟨⟨j, m, some o, h.node⟩, by simp, ?_, fun r hr fuel parent hfuel ↦ ?_,
    fun r new place hjoined fuel claimed hfuel hfree ↦ ?_,
    hnarrowed.binary h.holdsLeft h.entry h.places⟩
  · rcases hq with rfl | hq
    · exact List.mem_cons_self
    · exact List.mem_cons_of_mem _ (List.mem_append_right _ hq)
  · obtain ⟨fuel, rfl⟩ : ∃ n, fuel = n + 1 := ⟨fuel - 1, by omega⟩
    rw [chainEnd_succ ((hr i (by simp)).trans h.node)]
    exact hfound r (fun a ha ↦ hr a (by simp [ha])) fuel (by omega)
  · obtain ⟨fuel, rfl⟩ : ∃ n, fuel = n + 1 := ⟨fuel - 1, by omega⟩
    obtain ⟨m', hnode, hunion, hright⟩ := hemit r new place (hjoined.mono fun a ha ↦ by
      rcases List.mem_cons.mp ha with rfl | ha
      · exact List.mem_cons_self
      · exact List.mem_cons_of_mem _ (List.mem_append_right _ ha))
    have hid : id ∉ ps := fun hmem ↦ (List.nodup_append.mp h.places).2.2 id
      (List.mem_append_right _ hmem) id (List.mem_singleton_self _) rfl
    exact h.emit hnode (fun a ha ↦ hjoined.frame a (by simp [ha]) (hids a ha)) (by omega) hfree
      (fun cs ↦ hright fuel cs (by omega)) hunion
      (hnarrowed.frame id (Array.getElem?_eq_some_iff.mp h.entry).1 hid)

/-- The link is the last one but one. -/
theorem chainEnd_of_chain (hright : ChainEnd g g' nodes right n k m k ks js ps q last) :
    ChainEnd g (g'.modify id (setOperands .intersection l k)) nodes
      (.binary .intersection left mark right) n o i id (l :: ls ++ k :: ks) (i :: (ids ++ js))
      (is ++ ps ++ [id]) q last := by
  have hi : i ∉ js := fun hmem ↦ (List.nodup_cons.mp h.nodup).1 (List.mem_append_right _ hmem)
  have hlt' := h.lt_right
  refine h.chainEnd (.inr hright.mem)
    (fun r hr fuel hfuel ↦ hright.found r hr fuel (some i) hfuel)
    (fun r new place hjoined ↦ ⟨m, ?_, ?_, fun fuel cs hfuel hcs ↦ ?_⟩) hright.narrowed
  · exact (hjoined.frame i List.mem_cons_self (ne_of_mem_of_not_mem hright.mem hi).symm).trans
      h.node
  · obtain ⟨a, b, c, htop⟩ := hright.top
    by_cases hm : m = q
    · have hlink := hjoined.link
      rw [← hm, htop] at hlink
      exact isUnionAt_of_and hlink
    · exact isUnionAt_of_and
        ((hjoined.frame m (List.mem_cons_of_mem _ hright.top_mem) hm).trans htop)
  · exact hright.emit r new place (hjoined.mono (List.subset_cons_self _ _)) fuel cs (by omega) hcs

/-- The right operand is the last one. -/
theorem chainEnd_of_last (hright : g.Holds k right ps) (hchain : right.isChain = false)
    (hm : m ∈ js) (hkeeps : KeepsOperand g nodes k m ks js)
    (hends : ∀ r : Region, r.nodes[m]? = nodes[m]? → ∀ fuel parent, r.chainEnd .and fuel parent m =
      (parent, m)) :
    ChainEnd g ((g.joined (newLeaf (.surface n)) k).modify id
        (setOperands .intersection l (g.size + 1))) nodes
      (.binary .intersection left mark right) n o i id (l :: ls ++ k :: ks) (i :: (ids ++ js))
      (is ++ ps ++ [id]) i m := by
  have hi : i ∉ js := fun hmem ↦ (List.nodup_cons.mp h.nodup).1 (List.mem_append_right _ hmem)
  have hlt' := h.lt_right
  refine h.chainEnd (.inl rfl) (fun r hr fuel _ ↦ hends r (hr m hm) fuel (some i))
    (fun r new place hjoined ↦ ⟨new, ?_, isUnionAt_of_and hjoined.node,
      fun fuel cs hfuel hcs ↦ ?_⟩) (.joined hright hchain)
  · rw [hjoined.link, h.node]
    rfl
  · obtain ⟨fuel, rfl⟩ : ∃ n, fuel = n + 2 := ⟨fuel - 2, by omega⟩
    obtain ⟨hlast, hwrap⟩ := hkeeps r (fun a ha ↦ hjoined.frame a (List.mem_cons_of_mem _ ha)
      (ne_of_mem_of_not_mem ha hi)) (fuel + 1) cs (by omega) hcs
    exact ⟨_, emit_join hjoined.node hjoined.operand hlast (hwrap _)⟩

/-- The right operand is a run, which is spelled out. -/
theorem chainEnd_of_run {s : Shorthand} {y : RegionTree} {a b : Nat} {w : Int} {as : List Nat}
    (hrun : RunLink g nodes s k m a b y w as) (hjs : js = m :: (as ++ [b])) (hk : k < g.size) :
    ∃ g', ChainEnd g g' nodes (.binary .intersection left mark (.run s)) n o i id
      (l :: ls ++ k :: ks) (i :: (ids ++ js)) (is ++ ps ++ [id]) m b := by
  subst hjs
  have hlt' := h.lt_right
  have hprints := (printsBare_put (y.narrowedChain w n) ⟨g, []⟩).prints
  refine ⟨_, h.chainEnd (.inr List.mem_cons_self) (fun r hr fuel ↦ hrun.found r hr fuel (some i))
    (fun r new place hjoined ↦ ⟨m, ?_, ?_, fun fuel cs hfuel hcs ↦ ⟨k :: cs, ?_⟩⟩)
    (.of_prints hprints (hrun.narrowText_eq n) ps)⟩
  · exact (hjoined.frame i List.mem_cons_self (Nat.ne_of_gt hlt')).trans h.node
  · have hlink := hjoined.link
    rw [hrun.node] at hlink
    exact isUnionAt_of_and hlink
  · rw [hrun.emit (hjoined.mono (List.subset_cons_self _ _)) hk (hcs k List.mem_cons_self)
      (by omega), put_claimed]

end Link

section

variable {x : RegionTree} {id : Nat} {ids places : List Nat}

/-- The chain of a region that shows an intersection ends in an operand. -/
theorem Shows.exists_chainEnd (h : Shows g nodes tree o i os) (htree : tree.IsBracketed)
    (hruns : tree.RunsFollow) (hchain : tree.isChain = true) (hnames : g.NamesCells)
    (hholds : g.Holds id tree places) (hplaces : places.Nodup)
    (hplace : peel g g.size o = peel g g.size id) (hspans : Spans nodes i x ids)
    (hnodup : ids.Nodup) (hlt : ∀ a ∈ o :: os, a < g.size) (horigins : (o :: os).Nodup) (n : Int) :
    ∃ g' q last, ChainEnd g g' nodes tree n o i id os ids places q last := by
  induction h generalizing x id ids places with
  | leaf | cell | complement => cases hchain
  | run => exact hruns.elim
  | @binary op l k o i j m mark left right ls ks entry isBinary node ltl ltr atLeft atRight _ ihr =>
    obtain rfl : op = .intersection := of_decide_eq_true hchain
    cases hholds with
    | @binary _ l' k' _ _ _ _ is js entry' _ holdsLeft holdsRight =>
    obtain ⟨_, _, hleft, -⟩ := holdsLeft.strands
    obtain ⟨_, _, hright, -⟩ := holdsRight.strands
    have hself : peel g g.size id = id := peel_eq_self (.binary entry' isBinary hleft hright)
    rw [hplace, hself, entry'] at entry
    obtain ⟨⟩ := Option.some.inj entry
    obtain ⟨htreel, htreer, hterms⟩ := htree
    obtain ⟨hunionl, hunionr⟩ := hterms rfl
    rw [List.forall_mem_cons, List.forall_mem_append] at hlt
    obtain ⟨hlto, hltl, hltr⟩ := hlt
    have hrest := (List.nodup_cons.mp horigins).2
    obtain ⟨horiginsl, horiginsr, -⟩ := List.nodup_append.mp hrest
    cases hspans with
    | unit node' => cases Option.some.inj (node.symm.trans node')
    | complement node' => cases Option.some.inj (node.symm.trans node')
    | @join _ _ _ _ _ _ _ ns ms node' _ hl hr =>
    obtain ⟨⟩ := Option.some.inj (node.symm.trans node')
    obtain ⟨-, hnodes⟩ := List.nodup_cons.mp hnodup
    obtain ⟨-, hright', -⟩ := List.nodup_append.mp (List.nodup_append.mp hplaces).1
    have hlink : Link g nodes left mark o i id j m l k ls ks ns ms is js :=
      ⟨node, hplace.trans hself, entry', holdsLeft, ltl, ltr, hlto, horigins, hnodup, hplaces,
        atLeft.keepsOperand htreel hunionl hnames hl hltl horiginsl⟩
    by_cases hchainr : right.isChain = true
    · obtain ⟨-, hfollow | ⟨-, s, rfl⟩⟩ := hruns
      · obtain ⟨g', q, last, hend⟩ := ihr htreer hfollow hchainr holdsRight hright' rfl hr
          (List.nodup_append.mp hnodes).2.1 hltr horiginsr
        exact ⟨_, q, last, hlink.chainEnd_of_chain hend⟩
      · obtain ⟨a, b, y, w, as, hms, hrun⟩ :=
          atRight.exists_runLink hr (of_decide_eq_true hchainr)
        obtain ⟨g', hend⟩ := hlink.chainEnd_of_run hrun hms (hltr k List.mem_cons_self)
        exact ⟨g', m, b, hend⟩
    · rw [Bool.not_eq_true] at hchainr
      exact ⟨_, i, m, hlink.chainEnd_of_last holdsRight hchainr hr.mem
        (atRight.keepsOperand htreer hunionr hnames hr hltr horiginsr)
        fun r hr fuel parent ↦ atRight.chainEnd_eq_self hchainr hr fuel parent⟩
  | @group opening closing inner o i os isGroup _ ih =>
    cases hholds with
    | @group _ c _ _ _ is entry below =>
    obtain ⟨_, _, hstrands, -⟩ := below.strands
    obtain ⟨hbelow, -, hnot⟩ := List.nodup_append.mp hplaces
    obtain ⟨g', q, last, hend⟩ := ih htree hruns hchain below hbelow
      (hplace.trans (peel_eq_inner hstrands entry)) hspans hnodup hlt horigins
    exact ⟨g', q, last, { hend with
      narrowed := hend.narrowed.group entry hchain fun hid ↦
        hnot id hid id (List.mem_singleton_self _) rfl }⟩

end

/-! ## The whole -/

theorem append_surface (r : Region) (n : Int) :
    r.append (surface n) =
      ({ r with nodes := r.nodes.push (.unit (.surface n) none) }, r.nodes.size) := by
  have hcell : (r.cell.isSome && r.cell == (surface n).cell) = false := by
    have hnone : (surface n).cell = none := rfl
    rw [hnone]
    cases r.cell <;> rfl
  have hwalk : (surface n).walk = [0] := rfl
  have hsize : (surface n).size = 1 := rfl
  have hroot : (surface n).root = 0 := rfl
  have hnode : (surface n).node? 0 = some (.unit (.surface n) none) := rfl
  unfold append copyBehind
  rw [hcell, hwalk, hsize, hroot]
  simp [placeTable, placeIn, copyNode, hnode, RegionNode.renumber, RegionNode.setOrigin]

section

variable {n : Int}

/-- The region with the side of a surface behind its nodes, and behind that its join with one of
them. -/
def withSide (r : Region) (n : Int) (last : Nat) : Region :=
  { r with
    nodes := (r.nodes.push (.unit (.surface n) none)).push
      (.branch .and last (some r.nodes.size) none) }

theorem getElem?_withSide_of_lt {j : Nat} (h : j < r.nodes.size) :
    (r.withSide n last).nodes[j]? = r.nodes[j]? := by
  rw [withSide, getElem?_push_of_lt (by rw [Array.size_push]; omega), getElem?_push_of_lt h]

theorem getElem?_withSide_size :
    (r.withSide n last).nodes[r.nodes.size]? = some (.unit (.surface n) none) := by
  rw [withSide, getElem?_push_of_lt (by rw [Array.size_push]; omega), Array.getElem?_push_size]

theorem getElem?_withSide_succ :
    (r.withSide n last).nodes[r.nodes.size + 1]? =
      some (.branch .and last (some r.nodes.size) none) := by
  have hsize : (r.nodes.push (.unit (.surface n) none)).size = r.nodes.size + 1 := Array.size_push _
  rw [withSide, ← hsize, Array.getElem?_push_size]

theorem size_withSide : (r.withSide n last).size = r.nodes.size + 2 := by
  rw [size, withSide, Array.size_push, Array.size_push]

/-- A side joins the last operand of the chain at the root. -/
theorem andWith_surface {parent : Option Nat}
    (h : ∀ r' : Region, (∀ j < r.nodes.size, r'.nodes[j]? = r.nodes[j]?) →
      r'.chainEnd .and (r.nodes.size + 1) none r.root = (parent, last)) :
    r.andWith (surface n) = match parent with
      | some q =>
        { r with nodes := (r.withSide n last).nodes.modify q (setRight (r.nodes.size + 1)) }
      | none => { r.withSide n last with root := r.nodes.size + 1 } := by
  have hsize : (r.nodes.push (.unit (.surface n) none)).size = r.nodes.size + 1 := Array.size_push _
  have hend := h { r with nodes := r.nodes.push (.unit (.surface n) none) } fun j hj ↦
    getElem?_push_of_lt hj
  unfold andWith graft
  rw [append_surface]
  dsimp only
  rw [size, hsize, hend]
  cases parent <;> rfl

theorem ChainEnd.writeInto_eq {os ids places : List Nat} {q : Nat}
    (h : ChainEnd g g' r.nodes tree n g.root r.root g.root os ids places q last)
    (hids : ∀ a ∈ ids, a < r.nodes.size) :
    (r.andWith (surface n)).writeInto g = g'.setRoot g.root := by
  have htop := hids _ h.top_mem
  have hq := hids _ h.mem
  let r' : Region :=
    { r with nodes := (r.withSide n last).nodes.modify q (setRight (r.nodes.size + 1)) }
  have hand : r.andWith (surface n) = r' := andWith_surface fun r' hr' ↦
    h.found r' (fun j hj ↦ hr' j (hids j hj)) (r.nodes.size + 1) none (by omega)
  have hother {j : Nat} (hj : j ≠ q) : r'.nodes[j]? = (r.withSide n last).nodes[j]? := by
    rw [Array.getElem?_modify, if_neg hj.symm]
  have hjoined : Joined r.nodes ids q last n r' (r.nodes.size + 1) r.nodes.size := by
    refine ⟨fun j hj hjq ↦ (hother hjq).trans (getElem?_withSide_of_lt (hids j hj)), ?_,
      (hother (by omega)).trans getElem?_withSide_succ,
      (hother (by omega)).trans getElem?_withSide_size⟩
    rw [Array.getElem?_modify, if_pos rfl, getElem?_withSide_of_lt hq]
  have hsize : r'.size = r.nodes.size + 2 := Array.size_modify.trans size_withSide
  obtain ⟨cs, hemit⟩ := h.emit r' _ _ hjoined (r.nodes.size + 2) [] (by omega) (by simp)
  have hroot : r'.root = r.root := rfl
  rw [hand, writeInto, hsize, hroot, hemit]

/-- Behind something else than a chain stands a new intersection. -/
theorem writeInto_andWith_of_emit
    (hend : ∀ r' : Region, (∀ j < r.nodes.size, r'.nodes[j]? = r.nodes[j]?) →
      r'.chainEnd .and (r.nodes.size + 1) none r.root = (none, r.root))
    (hlast : ∀ r' : Region, (∀ j < r.nodes.size, r'.nodes[j]? = r.nodes[j]?) → ∃ k cs,
      r'.emit (r.nodes.size + 1) r.root ⟨g, []⟩ = (k, ⟨g, cs⟩) ∧
        r'.wrapOperand .and r.root (k, ⟨g, cs⟩) = (k', ⟨g', cs⟩)) :
    (r.andWith (surface n)).writeInto g =
      (g'.joined (newLeaf (.surface n)) k').setRoot (g'.size + 1) := by
  let r' : Region := { r.withSide n r.root with root := r.nodes.size + 1 }
  have hand : r.andWith (surface n) = r' := andWith_surface hend
  obtain ⟨k, cs, hemit, hwrap⟩ := hlast r' fun j hj ↦ getElem?_withSide_of_lt hj
  have hjoin := emit_join (r := r') getElem?_withSide_succ getElem?_withSide_size hemit hwrap
  have hsize : r'.size = r.nodes.size + 2 := size_withSide
  have hroot' : r'.root = r.nodes.size + 1 := rfl
  rw [hand, writeInto, hsize, hroot', hjoin]

/-- A union is put in parentheses as an operand of an intersection. -/
theorem Shows.wrapOperand_of_isUnion {id : Nat} {places : List Nat}
    (h : Shows g r.nodes tree o i os) (hunion : tree.isUnion = true)
    (hholds : g.Holds id tree places) (cs : List Nat) : r.wrapOperand .and i (id, ⟨g, cs⟩) =
      (g.size, ⟨g.push (.branch (.group (.ofLiteral "(") id (.ofLiteral ")"))), cs⟩) := by
  cases h with
  | leaf | run | cell | complement | group => cases hunion
  | @binary op _ _ _ _ _ _ _ _ _ _ _ _ isBinary node =>
    cases op with
    | intersection => cases hunion
    | complement | group => cases isBinary
    | union =>
      have hnode : r.node? i = some (.branch .or _ _ _) := node
      cases hholds with
      | binary entry =>
        have hgroup : isGroup g id = false := by simp [isGroup, entry, Branch.binary]
        simp [wrapOperand, isUnionAt, hnode, Draft.wrapUnlessGroup, hgroup, Draft.wrap, Draft.push]

/-- The geometry of a region that is narrowed by a side is written with the number behind its chain,
in parentheses if it was a union. -/
theorem text_writeInto_andWith (hg : g.IsTree tree) (htree : tree.IsBracketed)
    (hruns : tree.RunsFollow) (hnames : g.NamesCells) (hread : ofGeometry g = .ok r)
    (cell : Option Int) (n : Int) (tol : Tolerance) :
    ((((r.setCell cell).andWith (surface n)).writeInto g).render tol).text =
      tree.asOperand.narrowText n tol ++ layoutText g.trailing := by
  obtain ⟨os, hshown, hlt, hnodup⟩ := exists_shown hg hread
  have hshows : Shows g (r.setCell cell).nodes tree g.root (r.setCell cell).root os := hshown.shown
  have hroot : (r.setCell cell).root < (r.setCell cell).nodes.size := hshown.lt_size
  obtain ⟨s, ss, hstrands, -⟩ := hg.holds.strands
  obtain ⟨x, r', -, hr', hlinked⟩ | ⟨-, e, he⟩ :=
    ofGeometry_spec hstrands (hg.holds.depth_le_size List.nodup_range)
  swap
  · cases hread.symm.trans he
  obtain rfl := Except.ok.inj (hread.symm.trans hr')
  obtain ⟨ids, hspans, hids⟩ := hlinked.isTree
  have hspans : Spans (r.setCell cell).nodes (r.setCell cell).root x ids := hspans
  have hltIds : ∀ a ∈ ids, a < (r.setCell cell).nodes.size := fun a ha ↦ hspans.lt_size a ha
  have hlength : (List.range g.size).length = g.size := List.length_range
  generalize r.setCell cell = r at hshows hroot hspans hltIds ⊢
  by_cases hchain : tree.isChain = true
  · have hunion : tree.isUnion = false := by
      cases tree with
      | binary op l mark r =>
        obtain rfl : op = .intersection := of_decide_eq_true hchain
        rfl
      | leaf | run | complement | group => rfl
    obtain ⟨g', q, last, hend⟩ :=
      hshows.exists_chainEnd htree hruns hchain hnames hg.holds List.nodup_range
        rfl hspans hids hlt hnodup n
    rw [hend.writeInto_eq hltIds, GeometryTree.asOperand_eq_self hunion]
    exact hend.narrowed.text_render hlength.le tol
  rw [Bool.not_eq_true] at hchain
  have hfound (r' : Region) (hr' : ∀ j < r.nodes.size, r'.nodes[j]? = r.nodes[j]?) :
      r'.chainEnd .and (r.nodes.size + 1) none r.root = (none, r.root) :=
    hshows.chainEnd_eq_self hchain (hr' _ hroot) _ _
  cases hunion : tree.isUnion with
  | false =>
    have hkeeps := hshows.keepsOperand htree hunion hnames hspans hlt hnodup
    rw [writeInto_andWith_of_emit hfound fun r' hr' ↦ by
      obtain ⟨hemit, hwrap⟩ :=
        hkeeps r' (fun a ha ↦ hr' a (hltIds a ha)) (r.nodes.size + 1) [] (by omega) (by simp)
      exact ⟨_, _, hemit, hwrap _⟩]
    rw [GeometryTree.asOperand_eq_self hunion]
    exact (Narrowed.joined hg.holds hchain).text_render hlength.le tol
  | true =>
    rw [writeInto_andWith_of_emit hfound fun r' hr' ↦ by
      have hshows' := hshows.congr_of_spans hspans fun a ha ↦ hr' a (hltIds a ha)
      have hemit := hshows'.leavesAlone htree hnames hlt hnodup (Nat.lt_succ_of_lt hroot)
        [] (by simp)
      exact ⟨_, _, hemit, hshows'.wrapOperand_of_isUnion hunion hg.holds _⟩]
    have hgroup : (tree.asOperand).isChain = false := by
      rw [GeometryTree.asOperand_of_isUnion hunion]
      exact hchain
    have hholds : (g.push (.branch (.group (.ofLiteral "(") g.root (.ofLiteral ")")))).Holds g.size
        tree.asOperand (List.range g.size ++ [g.size]) := by
      rw [GeometryTree.asOperand_of_isUnion hunion]
      exact .group (entry?_push_size _ _) (hg.holds.push _)
    exact (Narrowed.joined hholds hgroup).text_render (by simp [size_push]) tol

end

end Region

end TransportDeck
