import TransportDeck.Proofs.Node.GeometryTree
import TransportDeck.Proofs.Region.Algebra
import TransportDeck.Region.Written

/-!
# Regions of geometries

Reading a geometry gives the region of its tree.  Parentheses leave no node, but the node inside of
them comes from the outermost: the entries of a geometry fall into strands, each of them parentheses
around parentheses down to an entry of another kind, and nodes come from heads of strands.
-/

namespace TransportDeck

/-! ## Trees -/

/-- The intersection of sides as a chain. -/
def RegionTree.ofNumbers? : List Int → Option RegionTree
  | [] => none
  | n :: ns => some (ns.foldl (fun t n ↦ .join .and t (.unit (.surface n))) (.unit (.surface n)))

namespace GeometryTree

def leaf? : GeometryTree → Option Field
  | leaf f => some f
  | _ => none

/-- The region that a geometry describes; a number right behind `#` is one of a cell. -/
def region? : GeometryTree → Option RegionTree
  | leaf f => f.toInt?.map fun n ↦ .unit (.surface n)
  | run s => RegionTree.ofNumbers? s.numbers
  | binary op l _ r =>
    match l.region?, r.region? with
    | some x, some y => some (.join (if op = .union then .or else .and) x y)
    | _, _ => none
  | complement _ t =>
    match t.leaf? with
    | some f => f.toInt?.map fun n ↦ .complement (.unit (.cell n))
    | none => t.region?.map .complement
  | group _ t _ => t.region?

end GeometryTree

namespace RegionTree

theorem ofNumbers?_concat (n m : Int) (ns : List Int) : ofNumbers? (n :: (ns ++ [m])) =
    (ofNumbers? (n :: ns)).map fun t ↦ .join .and t (.unit (.surface m)) := by
  simp [ofNumbers?]

/-- A chain has the sides of its numbers, and lies in all of them. -/
theorem ofNumbers?_spec (n : Int) (ns : List Int) : ∃ x, ofNumbers? (n :: ns) = some x ∧
    x.sides = (n :: ns).map Side.surface ∧
      ∀ inside, x.holds inside = (n :: ns).all fun n ↦ inside (.surface n) := by
  induction ns using List.reverseRecOn with
  | nil => exact ⟨_, rfl, rfl, by simp [holds]⟩
  | append_singleton ns m ih =>
    obtain ⟨x, hx, hsides, hholds⟩ := ih
    refine ⟨.join .and x (.unit (.surface m)), ?_, ?_, ?_⟩
    · rw [ofNumbers?_concat, hx]
      rfl
    · simp [sides, hsides]
    · intro inside
      simp [holds, hholds, Bool.and_assoc]

end RegionTree

/-! ## Strands -/

namespace Geometry

variable {g : Geometry} {id : Nat} {tree : GeometryTree} {s : List Nat} {ss : List (List Nat)}

/-- The strands below a place, that of the place itself first. -/
inductive Strands (g : Geometry) : Nat → GeometryTree → List Nat → List (List Nat) → Prop where
  | leaf {id : Nat} {f : Field} (entry : g.entry? id = some (.leaf f)) :
      Strands g id (.leaf f) [id] []
  | run {id : Nat} {r : Shorthand} (entry : g.entry? id = some (.run r)) :
      Strands g id (.run r) [id] []
  | binary {id l r : Nat} {op : GeometryOp} {mark : Layout} {left right : GeometryTree}
      {s u : List Nat} {ss us : List (List Nat)}
      (entry : g.entry? id = some (.branch (.binary op l mark r))) (isBinary : op.isBinary = true)
      (atLeft : Strands g l left s ss) (atRight : Strands g r right u us) :
      Strands g id (.binary op left mark right) [id] (s :: ss ++ u :: us)
  | complement {id c : Nat} {mark : Layout} {operand : GeometryTree} {s : List Nat}
      {ss : List (List Nat)} (entry : g.entry? id = some (.branch (.complement mark c)))
      (below : Strands g c operand s ss) : Strands g id (.complement mark operand) [id] (s :: ss)
  | group {id c : Nat} {opening closing : Layout} {inner : GeometryTree} {s : List Nat}
      {ss : List (List Nat)} (entry : g.entry? id = some (.branch (.group opening c closing)))
      (below : Strands g c inner s ss) : Strands g id (.group opening inner closing) (id :: s) ss

theorem Strands.head? (h : g.Strands id tree s ss) : s.head? = some id := by
  cases h <;> rfl

/-- The strands are the places of the tree. -/
theorem Holds.strands {ids : List Nat} (h : g.Holds id tree ids) :
    ∃ s ss, g.Strands id tree s ss ∧ (s :: ss).flatten.Perm ids := by
  induction h with
  | leaf entry => exact ⟨_, _, .leaf entry, by simp⟩
  | run entry => exact ⟨_, _, .run entry, by simp⟩
  | @binary id l r op mark left right is js entry isBinary _ _ ihl ihr =>
    obtain ⟨s, ss, hl, hpl⟩ := ihl
    obtain ⟨u, us, hr, hpr⟩ := ihr
    refine ⟨_, _, .binary entry isBinary hl hr, ?_⟩
    rw [List.flatten_cons, List.flatten_append, List.singleton_append]
    exact ((hpl.append hpr).cons id).trans (List.perm_append_singleton id (is ++ js)).symm
  | @complement id c mark operand is entry _ ih =>
    obtain ⟨s, ss, hc, hp⟩ := ih
    refine ⟨_, _, .complement entry hc, ?_⟩
    rw [List.flatten_cons, List.singleton_append]
    exact (hp.cons id).trans (List.perm_append_singleton id is).symm
  | @group id c opening closing inner is entry _ ih =>
    obtain ⟨s, ss, hc, hp⟩ := ih
    refine ⟨_, _, .group entry hc, ?_⟩
    rw [List.flatten_cons, List.cons_append, ← List.flatten_cons]
    exact (hp.cons id).trans (List.perm_append_singleton id is).symm

/-- A node comes from the head of a strand; for the inside of a cell the strand has no
parentheses. -/
def Heads (ss : List (List Nat)) (isCell : Bool) (o : Nat) : Prop :=
  ∃ s ∈ ss, s.head? = some o ∧ (isCell = true → s = [o])

theorem Heads.mono {ss us : List (List Nat)} {c : Bool} {o : Nat}
    (h : Heads ss c o) (hsub : ss ⊆ us) :
    Heads us c o := by
  obtain ⟨s, hs, hhead, hcell⟩ := h
  exact ⟨s, hsub hs, hhead, hcell⟩

end Geometry

/-! ## Reading -/

namespace Region

open TransportDeck.Geometry

variable {g : Geometry} {nodes nodes' : Array RegionNode} {id top : Nat} {x : RegionTree}
  {ss : List (List Nat)}

/-- A tree that was put behind other nodes.  Its top comes from `origin`, and the other new nodes
from heads of strands. -/
structure PutBehind (ss : List (List Nat)) (origin : Option Nat) (nodes nodes' : Array RegionNode)
    (top : Nat) (x : RegionTree) : Prop where
  size_le : nodes.size ≤ nodes'.size
  frame : ∀ i < nodes.size, nodes'[i]? = nodes[i]?
  spans : ∃ ids, Spans nodes' top x ids ∧ ids.Nodup ∧ ∀ i ∈ ids, nodes.size ≤ i
  atTop : ∃ n, nodes'[top]? = some n ∧ n.isCell = false ∧ n.origin = origin
  others : ∀ i n, nodes.size ≤ i → i ≠ top → nodes'[i]? = some n →
    ∀ o ∈ n.origin, Heads ss n.isCell o

theorem getElem?_push_cases {n m : RegionNode} {i : Nat} (h : (nodes.push n)[i]? = some m) :
    (i = nodes.size ∧ m = n) ∨ (i < nodes.size ∧ nodes[i]? = some m) := by
  rw [Array.getElem?_push] at h
  split_ifs at h with hi
  · exact .inl ⟨hi, (Option.some.inj h).symm⟩
  · exact .inr ⟨(Array.getElem?_eq_some_iff.mp h).1, h⟩

theorem getElem?_push_of_lt {n : RegionNode} {i : Nat} (h : i < nodes.size) :
    (nodes.push n)[i]? = nodes[i]? := by
  rw [Array.getElem?_push_lt h, Array.getElem?_eq_getElem h]

namespace PutBehind

variable {origin : Option Nat}

theorem mono (h : PutBehind ss origin nodes nodes' top x) {us : List (List Nat)} (hsub : ss ⊆ us) :
    PutBehind us origin nodes nodes' top x :=
  ⟨h.size_le, h.frame, h.spans, h.atTop,
    fun i n hi hne hn o ho ↦ (h.others i n hi hne hn o ho).mono hsub⟩

theorem unit (nodes : Array RegionNode) (s : Side) (hs : s.isCell = false) :
    PutBehind ss origin nodes (nodes.push (.unit s origin)) nodes.size (.unit s) where
  size_le := by
    rw [Array.size_push]
    exact Nat.le_succ _
  frame := fun i hi ↦ getElem?_push_of_lt hi
  spans := ⟨_, .unit Array.getElem?_push_size, List.nodup_singleton _, by simp⟩
  atTop := ⟨_, Array.getElem?_push_size, by simp [RegionNode.isCell, RegionNode.side?, hs], rfl⟩
  others := by
    intro i n hi hne hn
    rcases getElem?_push_cases hn with ⟨rfl, -⟩ | ⟨hlt, -⟩
    · exact absurd rfl hne
    · exact absurd hi (Nat.not_le_of_lt hlt)

/-- The top takes over another origin. -/
theorem setOrigin (h : PutBehind ss origin nodes nodes' top x) (id : Nat) :
    PutBehind ss (some id) nodes (setOriginAt nodes' top id) top x := by
  obtain ⟨ids, hspans, hnodup, hge⟩ := h.spans
  obtain ⟨n, hn, hcell, -⟩ := h.atTop
  have htop : nodes.size ≤ top := hge top hspans.mem
  have hset (i : Nat) (hi : i ≠ top) : (setOriginAt nodes' top id)[i]? = nodes'[i]? := by
    rw [setOriginAt, Array.getElem?_modify, if_neg (Ne.symm hi)]
  refine ⟨?_, ?_, ⟨ids, ?_, hnodup, hge⟩, ⟨n.setOrigin (some id), ?_, ?_, ?_⟩, ?_⟩
  · rw [setOriginAt, Array.size_modify]
    exact h.size_le
  · intro i hi
    rw [hset i (by omega), h.frame i hi]
  · refine hspans.congr_origin fun i _ m hm ↦ ?_
    by_cases hi : i = top
    · exact ⟨some id, by rw [setOriginAt, Array.getElem?_modify, if_pos hi.symm, hm]; rfl⟩
    · exact ⟨m.origin, by rw [hset i hi, hm, m.setOrigin_origin]⟩
  · rw [setOriginAt, Array.getElem?_modify, if_pos rfl, hn]
    rfl
  · rw [RegionNode.isCell_setOrigin, hcell]
  · rw [RegionNode.origin_setOrigin]
  · intro i m hi hne hm
    rw [hset i hne] at hm
    exact h.others i m hi hne hm

/-- A join of two trees, of which the second was put behind the first. -/
theorem join {us : List (List Nat)} {nodes₁ nodes₂ : Array RegionNode} {l r : Nat} {y : RegionTree}
    {ol or : Option Nat} {op : RegionOp} (hop : op ≠ .complement)
    (hl : PutBehind ss ol nodes nodes₁ l x) (hr : PutBehind us or nodes₁ nodes₂ r y)
    (hol : ∀ o ∈ ol, Heads ss false o) (hor : ∀ o ∈ or, Heads us false o) (origin : Option Nat) :
    PutBehind (ss ++ us) origin nodes (nodes₂.push (.branch op l (some r) origin)) nodes₂.size
      (.join op x y) := by
  obtain ⟨is, hleft, his, hgel⟩ := hl.spans
  obtain ⟨js, hright, hjs, hger⟩ := hr.spans
  have hsize := hl.size_le
  have hleft₂ : Spans nodes₂ l x is := hleft.congr fun i hi ↦ hr.frame i (hleft.lt_size i hi)
  refine ⟨?_, ?_, ⟨nodes₂.size :: (is ++ js), ?_, ?_, ?_⟩,
    ⟨_, Array.getElem?_push_size, rfl, rfl⟩, ?_⟩
  · rw [Array.size_push]
    exact Nat.le_succ_of_le (hsize.trans hr.size_le)
  · intro i hi
    rw [getElem?_push_of_lt (by have := hr.size_le; omega), hr.frame i (by omega), hl.frame i hi]
  · exact .join Array.getElem?_push_size hop (hleft₂.push _) (hright.push _)
  · refine List.nodup_cons.mpr ⟨?_, List.nodup_append.mpr ⟨his, hjs, ?_⟩⟩
    · rw [List.mem_append]
      rintro (hi | hj)
      · exact Nat.lt_irrefl _ (hleft₂.lt_size _ hi)
      · exact Nat.lt_irrefl _ (hright.lt_size _ hj)
    · rintro i hi j hj rfl
      exact Nat.lt_irrefl _ (Nat.lt_of_lt_of_le (hleft.lt_size i hi) (hger i hj))
  · intro i hi
    rcases List.mem_cons.mp hi with rfl | hi
    · exact hsize.trans hr.size_le
    · rcases List.mem_append.mp hi with hi | hi
      · exact hgel i hi
      · exact hsize.trans (hger i hi)
  · intro i n hi hne hn o ho
    rcases getElem?_push_cases hn with ⟨rfl, -⟩ | ⟨-, hn⟩
    · exact absurd rfl hne
    by_cases hi₁ : i < nodes₁.size
    · rw [hr.frame i hi₁] at hn
      refine Heads.mono ?_ (List.subset_append_left ss us)
      by_cases htop : i = l
      · obtain ⟨m, hm, hcell, hom⟩ := hl.atTop
        obtain rfl := Option.some.inj (hn.symm.trans (htop ▸ hm))
        rw [hcell]
        exact hol o (hom ▸ ho)
      · exact hl.others i n hi htop hn o ho
    · refine Heads.mono ?_ (List.subset_append_right ss us)
      by_cases htop : i = r
      · obtain ⟨m, hm, hcell, hom⟩ := hr.atTop
        obtain rfl := Option.some.inj (hn.symm.trans (htop ▸ hm))
        rw [hcell]
        exact hor o (hom ▸ ho)
      · exact hr.others i n (Nat.le_of_not_lt hi₁) htop hn o ho

theorem complement {l : Nat} {ol : Option Nat} (h : PutBehind ss ol nodes nodes' l x)
    (hol : ∀ o ∈ ol, Heads ss false o) (origin : Option Nat) :
    PutBehind ss origin nodes (nodes'.push (.branch .complement l none origin)) nodes'.size
      (.complement x) := by
  obtain ⟨ids, hspans, hnodup, hge⟩ := h.spans
  have hsize := h.size_le
  refine ⟨?_, ?_, ⟨nodes'.size :: ids, ?_, ?_, ?_⟩, ⟨_, Array.getElem?_push_size, rfl, rfl⟩, ?_⟩
  · rw [Array.size_push]
    exact Nat.le_succ_of_le hsize
  · intro i hi
    rw [getElem?_push_of_lt (by omega), h.frame i hi]
  · exact .complement Array.getElem?_push_size (hspans.push _)
  · exact List.nodup_cons.mpr ⟨fun hi ↦ Nat.lt_irrefl _ (hspans.lt_size _ hi), hnodup⟩
  · rw [List.forall_mem_cons]
    exact ⟨hsize, hge⟩
  · intro i n hi hne hn o ho
    rcases getElem?_push_cases hn with ⟨rfl, -⟩ | ⟨-, hn⟩
    · exact absurd rfl hne
    by_cases htop : i = l
    · obtain ⟨m, hm, hcell, hom⟩ := h.atTop
      obtain rfl := Option.some.inj (hn.symm.trans (htop ▸ hm))
      rw [hcell]
      exact hol o (hom ▸ ho)
    · exact h.others i n hi htop hn o ho

/-- The inside of a cell comes from an entry without parentheses. -/
theorem complementCell (nodes : Array RegionNode) (n : Int) {c : Nat} (hc : [c] ∈ ss)
    (origin : Option Nat) : PutBehind ss origin nodes
      ((nodes.push (.unit (.cell n) (some c))).push (.branch .complement nodes.size none origin))
      (nodes.size + 1) (.complement (.unit (.cell n))) := by
  have hunit : Spans (nodes.push (.unit (.cell n) (some c))) nodes.size (.unit (.cell n))
      [nodes.size] := .unit Array.getElem?_push_size
  have htop : ((nodes.push (.unit (.cell n) (some c))).push
      (.branch .complement nodes.size none origin))[nodes.size + 1]? =
        some (.branch .complement nodes.size none origin) := by
    have hsize : (nodes.push (.unit (.cell n) (some c))).size = nodes.size + 1 := Array.size_push _
    rw [← hsize, Array.getElem?_push_size]
  refine ⟨?_, ?_, ⟨[nodes.size + 1, nodes.size], .complement htop (hunit.push _), by simp, by simp⟩,
    ⟨_, htop, rfl, rfl⟩, ?_⟩
  · simp only [Array.size_push]
    omega
  · intro i hi
    rw [getElem?_push_of_lt (by rw [Array.size_push]; omega), getElem?_push_of_lt hi]
  · intro i m hi hne hm o ho
    rcases getElem?_push_cases hm with ⟨hi', -⟩ | ⟨-, hm⟩
    · rw [Array.size_push] at hi'
      exact absurd hi' hne
    rcases getElem?_push_cases hm with ⟨-, rfl⟩ | ⟨hlt, -⟩
    · obtain rfl := Option.some.inj ho
      exact ⟨[c], hc, rfl, fun _ ↦ rfl⟩
    · exact absurd hi (Nat.not_le_of_lt hlt)

end PutBehind

theorem pushRun_concat (nodes : Array RegionNode) (n m : Int) (ns : List Int) :
    pushRun nodes (n :: (ns ++ [m])) = (pushRun nodes (n :: ns)).map fun (nodes, top) ↦
      ((nodes.push (.unit (.surface m) none)).push (.branch .and top (some nodes.size) none),
        nodes.size + 1) := by
  simp [pushRun]

theorem pushRun_spec (nodes : Array RegionNode) (n : Int) (ns : List Int) : ∃ nodes' top x,
    pushRun nodes (n :: ns) = some (nodes', top) ∧ RegionTree.ofNumbers? (n :: ns) = some x ∧
      PutBehind [] none nodes nodes' top x := by
  induction ns using List.reverseRecOn with
  | nil => exact ⟨_, _, _, rfl, rfl, .unit nodes (.surface n) rfl⟩
  | append_singleton ns m ih =>
    obtain ⟨nodes', top, x, hrun, hx, hput⟩ := ih
    have hand : RegionOp.and ≠ .complement := by decide
    have hunit : PutBehind [] none nodes' (nodes'.push (.unit (.surface m) none)) nodes'.size
        (.unit (.surface m)) := .unit nodes' (.surface m) rfl
    refine ⟨_, _, _, ?_, ?_, hput.join hand hunit (by simp) (by simp) none⟩
    · rw [pushRun_concat, hrun, Array.size_push]
      rfl
    · rw [RegionTree.ofNumbers?_concat, hx]
      rfl

end Region

theorem Geometry.Strands.leaf?_eq_some {g : Geometry} {id : Nat} {tree : GeometryTree}
    {s : List Nat} {ss : List (List Nat)} (h : g.Strands id tree s ss) {f : Field}
    (hf : tree.leaf? = some f) : g.entry? id = some (.leaf f) ∧ s = [id] := by
  cases h with
  | leaf entry =>
    obtain rfl := Option.some.inj hf
    exact ⟨entry, rfl⟩
  | run | binary | complement | group => cases hf

theorem Geometry.Strands.entry?_ne_leaf {g : Geometry} {id : Nat} {tree : GeometryTree}
    {s : List Nat} {ss : List (List Nat)} (h : g.Strands id tree s ss) (hf : tree.leaf? = none)
    (f : Field) : g.entry? id ≠ some (.leaf f) := by
  cases h with
  | leaf entry => cases hf
  | run entry | binary entry | complement entry | group entry =>
    rw [entry]
    simp

theorem Region.readEntry_binary {g : Geometry} {id l r : Nat} {op : GeometryOp} {mark : Layout}
    (entry : g.entry? id = some (.branch (.binary op l mark r))) (isBinary : op.isBinary = true)
    (fuel : Nat) (nodes : Array RegionNode) : readEntry g (fuel + 1) id nodes = (do
      let (nodes, l) ← readEntry g fuel l nodes
      let (nodes, r) ← readEntry g fuel r nodes
      let op : RegionOp := if op = .union then .or else .and
      return (nodes.push (.branch op l (some r) (some id)), nodes.size)) := by
  cases op with
  | intersection | union => simp only [readEntry, entry, Branch.binary]
  | complement | group => cases isBinary

theorem Region.readEntry_complement {g : Geometry} {id c : Nat} {mark : Layout}
    (entry : g.entry? id = some (.branch (.complement mark c)))
    (hc : ∀ f, g.entry? c ≠ some (.leaf f)) (fuel : Nat) (nodes : Array RegionNode) :
    readEntry g (fuel + 1) id nodes = (do
      let (nodes, operand) ← readEntry g fuel c nodes
      return (nodes.push (.branch .complement operand none (some id)), nodes.size)) := by
  simp only [readEntry, entry, Branch.complement]

/-- Reading succeeds exactly if the tree has a region, which is then put behind the other nodes. -/
theorem Geometry.Strands.readEntry {g : Geometry} {id : Nat} {tree : GeometryTree} {s : List Nat}
    {ss : List (List Nat)} (h : g.Strands id tree s ss) {fuel : Nat} (hfuel : tree.depth ≤ fuel)
    (nodes : Array RegionNode) :
    (∃ x nodes' top, tree.region? = some x ∧
      Region.readEntry g fuel id nodes = .ok (nodes', top) ∧
        Region.PutBehind ss (some id) nodes nodes' top x) ∨
    (tree.region? = none ∧ ∃ e, Region.readEntry g fuel id nodes = .error e) := by
  induction h generalizing fuel nodes with
  | @leaf id f entry =>
    obtain ⟨n, rfl⟩ : ∃ n, fuel = n + 1 :=
      ⟨fuel - 1, by simp only [GeometryTree.depth] at hfuel; omega⟩
    simp only [Region.readEntry, entry, Region.leafNumber, GeometryTree.region?]
    cases hf : f.toInt? with
    | none => exact .inr ⟨rfl, _, rfl⟩
    | some n => exact .inl ⟨_, _, _, rfl, rfl, .unit nodes (.surface n) rfl⟩
  | @run id r entry =>
    obtain ⟨n, rfl⟩ : ∃ n, fuel = n + 1 :=
      ⟨fuel - 1, by simp only [GeometryTree.depth] at hfuel; omega⟩
    simp only [Region.readEntry, entry, GeometryTree.region?]
    cases hr : r.numbers with
    | nil => exact .inr ⟨rfl, _, rfl⟩
    | cons n ns =>
      obtain ⟨nodes', top, x, hrun, hx, hput⟩ := Region.pushRun_spec nodes n ns
      rw [hrun]
      exact .inl ⟨x, _, _, hx, rfl, hput.setOrigin id⟩
  | @binary id l r op mark left right s u ss us entry isBinary hl hr ihl ihr =>
    simp only [GeometryTree.depth] at hfuel
    obtain ⟨n, rfl⟩ : ∃ n, fuel = n + 1 := ⟨fuel - 1, by omega⟩
    have hfuell : left.depth ≤ n := by omega
    have hfuelr : right.depth ≤ n := by omega
    have hsubl : ss ⊆ s :: ss := List.subset_cons_self s ss
    have hsubr : us ⊆ u :: us := List.subset_cons_self u us
    have hol : ∀ o ∈ some l, Geometry.Heads (s :: ss) false o := by
      rintro _ ⟨⟩
      exact ⟨s, List.mem_cons_self .., hl.head?, by simp⟩
    have hor : ∀ o ∈ some r, Geometry.Heads (u :: us) false o := by
      rintro _ ⟨⟩
      exact ⟨u, List.mem_cons_self .., hr.head?, by simp⟩
    have hop : (if op = .union then RegionOp.or else .and) ≠ .complement := by
      split_ifs <;> decide
    rw [Region.readEntry_binary entry isBinary, GeometryTree.region?]
    rcases ihl hfuell nodes with ⟨x, nodes₁, topl, hx, hreadl, hputl⟩ | ⟨hx, e, hreadl⟩
    · rcases ihr hfuelr nodes₁ with ⟨y, nodes₂, topr, hy, hreadr, hputr⟩ | ⟨hy, e, hreadr⟩
      · rw [hx, hy, hreadl]
        refine .inl ⟨_, _, _, rfl, ?_, (hputl.mono hsubl).join hop (hputr.mono hsubr) hol hor _⟩
        change (do
          let (nodes, r) ← Region.readEntry g n r nodes₁
          _) = _
        rw [hreadr]
        rfl
      · rw [hx, hy, hreadl]
        refine .inr ⟨rfl, e, ?_⟩
        change (do
          let (nodes, r) ← Region.readEntry g n r nodes₁
          _) = _
        rw [hreadr]
        rfl
    · rw [hx, hreadl]
      exact .inr ⟨rfl, e, rfl⟩
  | @complement id c mark operand s ss entry hc ih =>
    simp only [GeometryTree.depth] at hfuel
    obtain ⟨n, rfl⟩ : ∃ n, fuel = n + 1 := ⟨fuel - 1, by omega⟩
    have hfuelc : operand.depth ≤ n := by omega
    cases hleaf : operand.leaf? with
    | some f =>
      obtain ⟨hentry, rfl⟩ := hc.leaf?_eq_some hleaf
      simp only [Region.readEntry, entry, Branch.complement, GeometryTree.region?, hleaf, hentry,
        Region.leafNumber]
      cases hf : f.toInt? with
      | none => exact .inr ⟨rfl, _, rfl⟩
      | some n =>
        refine .inl ⟨_, _, _, rfl, rfl, ?_⟩
        rw [Array.size_push]
        exact .complementCell nodes n (List.mem_cons_self ..) _
    | none =>
      have hoc : ∀ o ∈ some c, Geometry.Heads (s :: ss) false o := by
        rintro _ ⟨⟩
        exact ⟨s, List.mem_cons_self .., hc.head?, by simp⟩
      simp only [Region.readEntry_complement entry (hc.entry?_ne_leaf hleaf),
        GeometryTree.region?, hleaf]
      rcases ih hfuelc nodes with ⟨x, nodes', top, hx, hreadc, hput⟩ | ⟨hx, e, hreadc⟩
      · rw [hx, hreadc]
        exact .inl ⟨_, _, _, rfl, rfl,
          (hput.mono (List.subset_cons_self s ss)).complement hoc (some id)⟩
      · rw [hx, hreadc]
        exact .inr ⟨rfl, e, rfl⟩
  | @group id c opening closing inner s ss entry hc ih =>
    simp only [GeometryTree.depth] at hfuel
    obtain ⟨n, rfl⟩ : ∃ n, fuel = n + 1 := ⟨fuel - 1, by omega⟩
    have hfuelc : inner.depth ≤ n := by omega
    simp only [Region.readEntry, entry, Branch.group, GeometryTree.region?]
    rcases ih hfuelc nodes with ⟨x, nodes', top, hx, hread, hput⟩ | ⟨hx, e, hread⟩
    · rw [hread]
      exact .inl ⟨x, _, _, hx, rfl, hput.setOrigin id⟩
    · rw [hread]
      exact .inr ⟨hx, e, rfl⟩

namespace Region

variable {g : Geometry} {tree : GeometryTree} {s : List Nat} {ss : List (List Nat)}

/-- The nodes of a region that was read come from heads of strands. -/
theorem ofGeometry_spec (h : g.Strands g.root tree s ss) (hdepth : tree.depth ≤ g.size) :
    (∃ x r, tree.region? = some x ∧ ofGeometry g = .ok r ∧ r.Linked (Geometry.Heads (s :: ss)) x) ∨
    (tree.region? = none ∧ ∃ e, ofGeometry g = .error e) := by
  have hpositive : 0 < tree.depth := by cases tree <;> simp [GeometryTree.depth]
  have hempty : g.isEmpty = false := by
    rw [Geometry.isEmpty, Array.isEmpty_eq_false_iff]
    intro hnil
    have hsize : g.size = 0 := by rw [Geometry.size, hnil]; rfl
    omega
  have hread : ofGeometry g = (do
      let (nodes, root) ← readEntry g g.size g.root #[]
      return ⟨nodes, root, none⟩) := by
    rw [ofGeometry, hempty]
    rfl
  rw [hread]
  rcases h.readEntry hdepth #[] with ⟨x, nodes, top, hx, hok, hput⟩ | ⟨hx, e, herror⟩
  · rw [hok]
    refine .inl ⟨x, ⟨nodes, top, none⟩, hx, rfl, ?_, ?_⟩
    · obtain ⟨ids, hspans, hnodup, -⟩ := hput.spans
      exact ⟨ids, hspans, hnodup⟩
    · intro n hn o ho
      obtain ⟨i, hi⟩ := Array.getElem?_of_mem hn
      by_cases htop : i = top
      · obtain ⟨m, hm, hcell, horigin⟩ := hput.atTop
        obtain rfl := Option.some.inj (hi.symm.trans (htop ▸ hm))
        rw [horigin] at ho
        obtain rfl := Option.some.inj ho
        exact ⟨s, List.mem_cons_self .., h.head?, by simp [hcell]⟩
      · exact (hput.others i n (Nat.zero_le _) htop hi o ho).mono (List.subset_cons_self s ss)
  · rw [herror]
    exact .inr ⟨hx, e, rfl⟩

end Region

end TransportDeck
