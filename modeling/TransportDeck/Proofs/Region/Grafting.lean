import TransportDeck.Proofs.Region.Algebra
import TransportDeck.Proofs.Region.Reading

/-!
# Grafting

An operand that is joined in place goes to the end of the chain of its operator.  The order of the
sides and the meaning are those of a join on top.
-/

namespace TransportDeck

namespace RegionTree

/-- Joins an operand to the last one of the chain of an operator. -/
def graft (op : RegionOp) : RegionTree → RegionTree → RegionTree
  | join op' l r, y => if op' = op then join op' l (graft op r y) else join op (join op' l r) y
  | x, y => join op x y

theorem agrees_graft (op : RegionOp) (x y : RegionTree) : (x.graft op y).Agrees (join op x y) := by
  induction x with
  | unit s => exact .refl _
  | complement t => exact .refl _
  | join op' l r _ ih =>
    unfold graft
    split_ifs with hop
    · subst hop
      constructor
      · simp only [sides, ih.sides_eq, List.append_assoc]
      · intro inside
        simp only [holds, ih.holds_eq]
        split_ifs
        · rw [Bool.or_assoc]
        · rw [Bool.and_assoc]
    · exact .refl _

end RegionTree

namespace Region

variable {id : Nat} {x y : RegionTree} {is : List Nat} {r : Region}

/-- Where the chain ends, and what joining an operand there makes of the tree.  Unless the chain
ends at once, the node above its end lies in the tree, and only that node changes. -/
theorem Spans.graft (h : Spans r.nodes id x is) (hnodup : is.Nodup) {fuel : Nat}
    (hfuel : x.depth ≤ fuel) {op : RegionOp} (hop : op ≠ .complement) (y : RegionTree)
    (parent : Option Nat) :
    (r.chainEnd op fuel parent id = (parent, id) ∧ x.graft op y = .join op x y) ∨
    ∃ q last, r.chainEnd op fuel parent id = (some q, last) ∧ q ∈ is ∧
      ∀ (nodes : Array RegionNode) (new place : Nat) (js : List Nat),
        (∀ i ∈ is, i ≠ q → nodes[i]? = r.nodes[i]?) →
        nodes[q]? = r.nodes[q]?.map (setRight new) →
        nodes[new]? = some (.branch op last (some place) none) → Spans nodes place y js →
        ∃ ids, Spans nodes id (x.graft op y) ids ∧ ids.Perm (new :: (is ++ js)) := by
  induction h generalizing fuel parent with
  | @unit id s o node =>
    have hnode : r.node? id = some (.unit s o) := node
    left
    refine ⟨?_, rfl⟩
    cases fuel <;> simp [chainEnd, hnode]
  | @complement id c o operand is node _ _ =>
    have hnode : r.node? id = some (.branch .complement c none o) := node
    left
    refine ⟨?_, rfl⟩
    cases fuel <;> simp [chainEnd, hnode]
  | @join id l rt op' o left right is js node isJoin hleft hright _ ih =>
    have hnode : r.node? id = some (.branch op' l (some rt) o) := node
    simp only [RegionTree.depth] at hfuel
    obtain ⟨n, rfl⟩ : ∃ n, fuel = n + 1 := ⟨fuel - 1, by omega⟩
    by_cases heq : op' = op
    swap
    · left
      exact ⟨by simp [chainEnd, hnode, heq], by rw [RegionTree.graft, if_neg heq]⟩
    subst heq
    right
    have hchain : r.chainEnd op' (n + 1) parent id = r.chainEnd op' n (some id) rt := by
      simp [chainEnd, hnode]
    obtain ⟨hid, hrest⟩ := List.nodup_cons.mp hnodup
    obtain ⟨-, hjs, hdisjoint⟩ := List.nodup_append.mp hrest
    rw [List.mem_append, not_or] at hid
    rw [hchain, RegionTree.graft, if_pos rfl]
    have hfuel' : right.depth ≤ n := by omega
    rcases ih hjs hfuel' (some id) with ⟨hend, hgraft⟩ | ⟨q, last, hend, hq, hspans⟩
    · -- The chain ends below this node.
      refine ⟨id, rt, hend, List.mem_cons_self .., ?_⟩
      intro nodes new place ks hkept hset hnew hoperand
      have hset' : nodes[id]? = some (.branch op' l (some new) o) := by
        rw [hset, node]
        rfl
      have hl : Spans nodes l left is := hleft.congr fun i hi ↦
        hkept i (by simp [hi]) (ne_of_mem_of_not_mem hi hid.1)
      have hr : Spans nodes rt right js := hright.congr fun i hi ↦
        hkept i (by simp [hi]) (ne_of_mem_of_not_mem hi hid.2)
      have hjoin : Spans nodes new (right.graft op' y) (new :: (js ++ ks)) := by
        rw [hgraft]
        exact .join hnew hop hr hoperand
      refine ⟨_, .join hset' isJoin hl hjoin, ?_⟩
      simp only [List.cons_append, List.append_assoc]
      exact ((List.perm_middle).cons id).trans (List.Perm.swap ..)
    · -- The chain goes on in the right operand.
      refine ⟨q, last, hend, by simp [hq], ?_⟩
      intro nodes new place ks hkept hset hnew hoperand
      obtain ⟨ids, hright', hperm⟩ := hspans nodes new place ks
        (fun i hi ↦ hkept i (by simp [hi])) hset hnew hoperand
      have hid' : nodes[id]? = some (.branch op' l (some rt) o) := by
        rw [hkept id (List.mem_cons_self ..) (ne_of_mem_of_not_mem hq hid.2).symm, node]
      have hl : Spans nodes l left is := hleft.congr fun i hi ↦
        hkept i (by simp [hi]) fun heq ↦ hdisjoint i hi q hq heq
      refine ⟨_, .join hid' isJoin hl hright', ?_⟩
      refine ((hperm.append_left is).cons id).trans ?_
      simp only [List.cons_append, List.append_assoc]
      exact ((List.perm_middle).cons id).trans (List.Perm.swap ..)

namespace Linked

variable {L : Bool → Nat → Prop} {a b : Region}

@[simp] theorem origin_setRight (new : Nat) (n : RegionNode) :
    (setRight new n).origin = n.origin := by
  cases n <;> rfl

@[simp] theorem isCell_setRight (new : Nat) (n : RegionNode) :
    (setRight new n).isCell = n.isCell := by
  cases n <;> rfl

theorem origins_setRight {nodes : Array RegionNode}
    (h : ∀ n ∈ nodes, ∀ o ∈ n.origin, L n.isCell o) (place new : Nat) :
    ∀ n ∈ nodes.modify place (setRight new), ∀ o ∈ n.origin, L n.isCell o := by
  intro n hn o ho
  obtain ⟨i, hi⟩ := Array.getElem?_of_mem hn
  rw [Array.getElem?_modify] at hi
  split_ifs at hi with hplace
  · obtain ⟨m, hm, rfl⟩ := Option.map_eq_some_iff.mp hi
    rw [isCell_setRight]
    rw [origin_setRight] at ho
    exact h m (Array.mem_of_getElem? hm) o ho
  · exact h n (Array.mem_of_getElem? hi) o ho

theorem graft {op : RegionOp} (hop : op ≠ .complement) (ha : a.Linked L x) (hb : b.Linked L y) :
    (Region.graft op a b).Linked L (x.graft op y) := by
  obtain ⟨is, hleft, his⟩ := ha.isTree
  obtain ⟨copies, js, happend, hright, hjs, hge, horigins⟩ := hb.append_spec a
  have hspans : Spans ({ a with nodes := a.nodes ++ copies } : Region).nodes a.root x is :=
    hleft.append copies
  obtain ⟨place, hpair⟩ : ∃ place, a.append b = ({ a with nodes := a.nodes ++ copies }, place) :=
    ⟨_, Prod.ext happend rfl⟩
  rw [hpair] at hright
  have hpushed (last : Nat) := origins_push (n := .branch op last (some place) none)
    (origins_append ha.origins horigins) rfl
  have hall : ((a.nodes ++ copies).size :: (is ++ js)).Nodup := by
    refine List.nodup_cons.mpr ⟨?_, List.nodup_append.mpr ⟨his, hjs, ?_⟩⟩
    · rw [List.mem_append]
      rintro (hi | hj)
      · exact Nat.lt_irrefl _ (hspans.lt_size _ hi)
      · exact Nat.lt_irrefl _ (hright.lt_size _ hj)
    · rintro i hi j hj rfl
      exact Nat.lt_irrefl _ (Nat.lt_of_lt_of_le (hleft.lt_size i hi) (hge i hj))
  rcases hspans.graft his (hspans.depth_le_size his) hop y none with
    ⟨hend, hgraft⟩ | ⟨q, last, hend, hq, htree⟩
  · have hresult : Region.graft op a b = { a with
        nodes := (a.nodes ++ copies).push (.branch op a.root (some place) none)
        root := (a.nodes ++ copies).size } := by
      simp only [Region.graft, hpair, size, hend]
    rw [hresult]
    refine ⟨⟨_, ?_, hall⟩, hpushed a.root⟩
    rw [hgraft]
    exact .join Array.getElem?_push_size hop (hspans.push _) (hright.push _)
  · have hresult : Region.graft op a b = { a with
        nodes := ((a.nodes ++ copies).push (.branch op last (some place) none)).modify q
          (setRight (a.nodes ++ copies).size) } := by
      simp only [Region.graft, hpair, size, hend]
    have hlt {i : Nat} (hi : i ∈ is ++ js) : i < (a.nodes ++ copies).size := by
      rcases List.mem_append.mp hi with hi | hj
      · exact hspans.lt_size i hi
      · exact hright.lt_size i hj
    have hkept (i : Nat) (hi : i ∈ is ++ js) (hne : i ≠ q) :
        (((a.nodes ++ copies).push (.branch op last (some place) none)).modify q
          (setRight (a.nodes ++ copies).size))[i]? = (a.nodes ++ copies)[i]? := by
      rw [Array.getElem?_modify, if_neg hne.symm, Array.getElem?_push_lt (hlt hi),
        Array.getElem?_eq_getElem (hlt hi)]
    have hqlt := hspans.lt_size q hq
    have hqnew : q ≠ (a.nodes ++ copies).size := Nat.ne_of_lt hqlt
    have hqjs : ∀ j ∈ js, j ≠ q := by
      rintro j hj rfl
      exact Nat.lt_irrefl _ (Nat.lt_of_lt_of_le (hleft.lt_size j hq) (hge j hj))
    obtain ⟨ids, htree', hperm⟩ := htree _ (a.nodes ++ copies).size place js
      (fun i hi hne ↦ hkept i (by simp [hi]) hne)
      (by rw [Array.getElem?_modify, if_pos rfl, Array.getElem?_push_lt hqlt,
        Array.getElem?_eq_getElem hqlt])
      (by rw [Array.getElem?_modify, if_neg hqnew, Array.getElem?_push_size])
      (hright.congr fun j hj ↦ hkept j (by simp [hj]) (hqjs j hj))
    rw [hresult]
    exact ⟨⟨ids, htree', hperm.nodup_iff.mpr hall⟩, origins_setRight (hpushed last) q _⟩

end Linked

end Region

/-!
## Proper regions

A geometry has a way to say which side of a surface a point is on, and that it is outside of a cell.
Regions that say no more are proper: those of geometries are, and the algebra keeps them so.
-/

namespace RegionTree

def isCell : RegionTree → Bool
  | unit s => s.isCell
  | _ => false

/-- Every side is one of a surface, but for the insides of cells right below a complement. -/
def IsProper : RegionTree → Prop
  | unit s => ∃ n, s = .surface n
  | join _ l r => l.IsProper ∧ r.IsProper
  | complement t => t.IsProper ∨ ∃ n, t = unit (.cell n)

theorem IsProper.graft {x y : RegionTree} (op : RegionOp) (hx : x.IsProper) (hy : y.IsProper) :
    (x.graft op y).IsProper := by
  induction x with
  | unit s => exact ⟨hx, hy⟩
  | complement t => exact ⟨hx, hy⟩
  | join op' l r _ ih =>
    unfold RegionTree.graft
    split_ifs
    · exact ⟨hx.1, ih hx.2⟩
    · exact ⟨hx, hy⟩

theorem isProper_of_ofNumbers? {ns : List Int} {x : RegionTree} (h : ofNumbers? ns = some x) :
    x.IsProper := by
  cases ns with
  | nil => cases h
  | cons n ns =>
    induction ns using List.reverseRecOn generalizing x with
    | nil =>
      obtain rfl := Option.some.inj h
      exact ⟨n, rfl⟩
    | append_singleton ns m ih =>
      rw [ofNumbers?_concat] at h
      obtain ⟨y, hy, rfl⟩ := Option.map_eq_some_iff.mp h
      exact ⟨ih hy, m, rfl⟩

end RegionTree

theorem GeometryTree.isProper_of_region? {tree : GeometryTree} {x : RegionTree}
    (h : tree.region? = some x) : x.IsProper := by
  induction tree generalizing x with
  | leaf f =>
    obtain ⟨n, -, rfl⟩ := Option.map_eq_some_iff.mp h
    exact ⟨n, rfl⟩
  | run s => exact RegionTree.isProper_of_ofNumbers? h
  | binary op l mark r ihl ihr =>
    unfold region? at h
    split at h
    · next y z hy hz =>
      obtain rfl := Option.some.inj h
      exact ⟨ihl hy, ihr hz⟩
    · cases h
  | complement mark t ih =>
    unfold region? at h
    split at h
    · obtain ⟨n, -, rfl⟩ := Option.map_eq_some_iff.mp h
      exact .inr ⟨n, rfl⟩
    · obtain ⟨y, hy, rfl⟩ := Option.map_eq_some_iff.mp h
      exact .inl (ih hy)
  | group opening t closing ih => exact ih h

namespace Region

/-- Every side is one of a surface, but for the insides of cells right below a complement. -/
def IsProper (r : Region) : Prop := ∃ tree, r.IsTree tree ∧ tree.IsProper

/-- A tree is one whatever its nodes remember. -/
theorem IsTree.linked {r : Region} {x : RegionTree} (h : r.IsTree x) :
    r.Linked (fun _ _ ↦ True) x :=
  ⟨h, fun _ _ _ _ ↦ trivial⟩

end Region

end TransportDeck
