import TransportDeck.Proofs.Number.Integers
import TransportDeck.Proofs.Region.Emission

/-!
# Regions as text

What a region is written as from scratch.  Operators of a union are colons and those of an
intersection are spaces; parentheses stand around a union that is an operand of an intersection, and
around the operand of a complement unless it is the number of a cell.
-/

namespace TransportDeck

/-- Puts a text in parentheses where they are needed. -/
def enclose (needed : Bool) (text : String) : String :=
  if needed then "(" ++ text ++ ")" else text

namespace RegionTree

def isUnion : RegionTree → Bool
  | join .or _ _ => true
  | _ => false

/-- The text of a region that is written from scratch. -/
def written : RegionTree → String
  | unit s => toString s.written
  | join op l r =>
    if op = .or then l.written ++ ":" ++ r.written
    else enclose l.isUnion l.written ++ " " ++ enclose r.isUnion r.written
  | complement t => "#" ++ enclose (!t.isCell) t.written

end RegionTree

namespace Region

open TransportDeck.Geometry

/-! ## Leaves -/

/-- The field of a side that no text shows yet. -/
def newField (s : Side) : Field :=
  (Field.int s.divider).asSignedIdentifier.setNegative (!s.positive)

theorem signed_newField (s : Side) : (newField s).signed = some (.int s.written) := by
  cases hp : s.positive <;>
    simp [newField, Field.int, Field.new, Field.asSignedIdentifier, Field.splitSign,
      Field.setNegative, Field.signed, SignFlag.apart, Value.coerce, Value.magnitude, Value.negate,
      Side.written, hp]

/-- A new field is printed as the number of its side. -/
theorem text_render_newField (s : Side) (t : Tolerance) :
    ((newField s).render t).text = toString s.written := by
  have hread : (newField s).asRead = none := rfl
  have hchanged : (newField s).hasChanged t = true := by
    simp only [Field.hasChanged, signed_newField, hread]
  have hstyle : (newField s).style = .plain := rfl
  have hpad (text : String) : Text.padRight 0 text = text := by simp [Text.padRight]
  have hlayout : (newField s).layout = none := rfl
  have hrender : NumberStyle.plain.render t (.int s.written) = toString s.written :=
    Number.renderInt_plain s.written
  have hwidth : NumberStyle.plain.width = 0 := rfl
  simp only [Field.render, hchanged, signed_newField, Field.renderChanged, hstyle, Field.afterValue,
    hlayout, hrender, hwidth, hpad, String.append_empty, Bool.not_true,
    Bool.false_eq_true, if_false]

/-! ## Entries -/

variable {d d' : Draft} {w : Nat × Draft} {text text' : String}

/-- The entries of a tree with this text were put behind those that were there. -/
structure Prints (d : Draft) (w : Nat × Draft) (text : String) : Prop where
  grows : ∃ tree, d.geometry.Grows w.2.geometry w.1 tree ∧ ∀ t, (tree.render t).text = text
  trailing_eq : w.2.geometry.trailing = d.geometry.trailing

namespace Prints

/-- A new leaf is printed as the number of its side. -/
theorem leaf (s : Side) (d : Draft) : Prints d (d.push (newLeaf s)) (toString s.written) :=
  ⟨⟨_, .leaf d.geometry (newField s), text_render_newField s⟩, rfl⟩

/-- What is wrapped is printed in parentheses. -/
theorem wrap (h : Prints d w text) : Prints d (w.2.wrap w.1) ("(" ++ text ++ ")") := by
  obtain ⟨⟨tree, hgrows, htext⟩, htrailing⟩ := h
  refine ⟨⟨_, hgrows.group (.ofLiteral "(") (.ofLiteral ")"), fun t ↦ ?_⟩, htrailing⟩
  simp [GeometryTree.render, htext]

/-- A complement is printed behind its mark. -/
theorem complement (h : Prints d w text) :
    Prints d (w.2.push (.branch (.complement (.ofLiteral "#") w.1))) ("#" ++ text) := by
  obtain ⟨⟨tree, hgrows, htext⟩, htrailing⟩ := h
  refine ⟨⟨_, hgrows.complement (.ofLiteral "#"), fun t ↦ ?_⟩, htrailing⟩
  simp [GeometryTree.render, htext]

/-- The operands of a binary branch are printed with a colon or a blank between them. -/
theorem binary {w' : Nat × Draft} (hl : Prints d w text) (op : RegionOp)
    (hr : Prints w.2 w' text') : Prints d (w'.2.push (freshBinary op w.1 w'.1))
      (text ++ (if op = .or then ":" else " ") ++ text') := by
  obtain ⟨⟨left, hgrowsl, hleft⟩, htrailingl⟩ := hl
  obtain ⟨⟨right, hgrowsr, hright⟩, htrailingr⟩ := hr
  refine ⟨?_, htrailingr.trans htrailingl⟩
  cases op with
  | and | complement =>
    refine ⟨_, hgrowsl.binary rfl hgrowsr .gap, fun t ↦ ?_⟩
    simp [GeometryTree.render, hleft, hright]
  | or =>
    refine ⟨_, hgrowsl.binary rfl hgrowsr (.ofLiteral ":"), fun t ↦ ?_⟩
    simp [GeometryTree.render, hleft, hright]

end Prints

variable {r : Region} {id : Nat} {x : RegionTree} {ids : List Nat}

/-- Whether there is a union below a place is told by the tree that is there. -/
theorem Spans.isUnionAt_eq (h : Spans r.nodes id x ids) : r.isUnionAt id = x.isUnion := by
  cases h with
  | @unit _ side o node =>
    have hnode : r.node? id = some (.unit side o) := node
    rw [isUnionAt, hnode]
    rfl
  | @join _ l rt op o left right _ _ node =>
    have hnode : r.node? id = some (.branch op l (some rt) o) := node
    rw [isUnionAt, hnode]
    cases op <;> rfl
  | @complement _ c o operand _ node =>
    have hnode : r.node? id = some (.branch .complement c none o) := node
    rw [isUnionAt, hnode]
    rfl

/-- A text without parentheses around it. -/
structure PrintsBare (d : Draft) (w : Nat × Draft) (text : String) : Prop where
  prints : Prints d w text
  bare : isGroup w.2.geometry w.1 = false

/-- An entry that is no pair of parentheses is no group. -/
theorem isGroup_eq_false {g : Geometry} {id : Nat} {e : GeometryEntry}
    (entry : g.entry? id = some e) (he : ∀ b, e = .branch b → b.op ≠ .group) :
    isGroup g id = false := by
  rw [isGroup, entry]
  cases e with
  | leaf | run => rfl
  | branch b => exact decide_eq_false (he b rfl)

/-- A new entry that is no group is printed bare. -/
theorem PrintsBare.push {e : GeometryEntry} (h : Prints d (d'.push e) text)
    (he : ∀ b, e = .branch b → b.op ≠ .group) : PrintsBare d (d'.push e) text where
  prints := h
  bare := isGroup_eq_false (entry?_push_size _ _) he

/-- Puts what was written in parentheses where they are needed. -/
def bracket (needed : Bool) (w : Nat × Draft) : Nat × Draft := if needed then w.2.wrap w.1 else w

/-- Parentheses are printed where they are needed. -/
theorem Prints.bracket (h : Prints d w text) (needed : Bool) :
    Prints d (bracket needed w) (enclose needed text) := by
  unfold Region.bracket enclose
  split_ifs
  · exact h.wrap
  · exact h

/-- What is no group gets parentheses. -/
theorem wrapUnlessGroup_of_bare (hbare : isGroup w.2.geometry w.1 = false) :
    w.2.wrapUnlessGroup w.1 = w.2.wrap w.1 := by
  rw [Draft.wrapUnlessGroup, hbare]
  rfl

/-- An operand gets parentheses if it is a union below an intersection. -/
theorem Spans.wrapOperand_eq (h : Spans r.nodes id x ids) (hbare : isGroup w.2.geometry w.1 = false)
    {op : RegionOp} (hop : op ≠ .complement) :
    r.wrapOperand op id w = bracket (op != .or && x.isUnion) w := by
  rw [Region.wrapOperand, wrapUnlessGroup_of_bare hbare, h.isUnionAt_eq]
  cases op with
  | complement => exact absurd rfl hop
  | and | or => rfl

/-- The operand of a complement gets parentheses unless it is a cell. -/
theorem Spans.wrapComplemented_eq (h : Spans r.nodes id x ids)
    (hbare : isGroup w.2.geometry w.1 = false) :
    r.wrapComplemented id w = bracket (!x.isCell) w := by
  rw [Region.wrapComplemented, wrapUnlessGroup_of_bare hbare, h.isCellAt_eq]
  cases x.isCell <;> rfl

/-! ## Trees -/

/-- Writes a tree behind the entries that are there. -/
def put : RegionTree → Draft → Nat × Draft
  | .unit s, d => d.push (newLeaf s)
  | .join op l r, d =>
    let left := bracket (op != .or && l.isUnion) (put l d)
    let right := bracket (op != .or && r.isUnion) (put r left.2)
    right.2.push (freshBinary op left.1 right.1)
  | .complement t, d =>
    let operand := bracket (!t.isCell) (put t d)
    operand.2.push (.branch (.complement (.ofLiteral "#") operand.1))

/-- A tree is put into a draft bare, and printed as it is written. -/
theorem printsBare_put (x : RegionTree) (d : Draft) : PrintsBare d (put x d) x.written := by
  induction x generalizing d with
  | unit s => exact .push (.leaf s d) (by rintro b ⟨⟩)
  | join op l r ihl ihr =>
    have hl := (ihl d).prints.bracket (op != .or && l.isUnion)
    have hr :=
      (ihr (bracket (op != .or && l.isUnion) (put l d)).2).prints.bracket (op != .or && r.isUnion)
    refine .push ?_ ?_
    · have htext := hl.binary op hr
      cases op <;> simpa [RegionTree.written, enclose] using htext
    · cases op <;> rintro b ⟨⟩ <;> simp [Branch.binary]
  | complement t ih =>
    refine .push ((ih d).prints.bracket (!t.isCell)).complement ?_
    rintro b ⟨⟩
    simp [Branch.complement]

/-! ## Regions -/

/-- How many entries there are once the node was written behind others; none if on the way a node
that comes from one of those there is met. -/
def entriesBehind (r : Region) : (fuel : Nat) → (written : Nat) → (id : Nat) → Option Nat
  | 0, written, _ => some written
  | fuel + 1, written, id =>
    match r.node? id with
    | none => some written
    | some n =>
      if n.origin.any (· < written) then none
      else
        match n with
        | .unit .. => some (written + 1)
        | .branch .complement l _ _ =>
          (r.entriesBehind fuel written l).map (· + (!r.isCellAt l).toNat + 1)
        | .branch op l right _ =>
          let operand := fun written id ↦
            (r.entriesBehind fuel written id).map (· + (op != .or && r.isUnionAt id).toNat)
          match right with
          | none => operand written l
          | some right => ((operand written l).bind (operand · right)).map (· + 1)

section

variable {o : Option Nat} {fuel written l : Nat}

/-- A leaf takes one new entry, unless its origin was written already. -/
theorem entriesBehind_unit {side : Side} (node : r.nodes[id]? = some (.unit side o)) :
    r.entriesBehind (fuel + 1) written id = if o.any (· < written) then none
      else some (written + 1) := by
  have hnode : r.node? id = some (.unit side o) := node
  simp only [entriesBehind, hnode, RegionNode.origin]
  rfl

/-- A join takes the entries of its operands, their parentheses and its own. -/
theorem entriesBehind_join {op : RegionOp} {k : Nat}
    (node : r.nodes[id]? = some (.branch op l (some k) o)) (hop : op ≠ .complement) :
    r.entriesBehind (fuel + 1) written id =
      if o.any (· < written) then none
      else
      (((r.entriesBehind fuel written l).map (· + (op != .or && r.isUnionAt l).toNat)).bind
        fun written ↦
        (r.entriesBehind fuel written k).map (· + (op != .or && r.isUnionAt k).toNat)).map
          (· + 1) := by
  have hnode : r.node? id = some (.branch op l (some k) o) := node
  simp only [entriesBehind, hnode, RegionNode.origin]

/-- A complement takes the entries of its operand, its parentheses and its own. -/
theorem entriesBehind_complement (node : r.nodes[id]? = some (.branch .complement l none o)) :
    r.entriesBehind (fuel + 1) written id =
      if o.any (· < written) then none
      else (r.entriesBehind fuel written l).map (· + (!r.isCellAt l).toNat + 1) := by
  have hnode : r.node? id = some (.branch .complement l none o) := node
  simp only [entriesBehind, hnode, RegionNode.origin]
  rfl

/-- An origin that is ahead has nothing to be claimed. -/
theorem claim_of_ahead (h : ¬o.any (· < d.geometry.size) = true) : d.claim o = (none, d) := by
  cases o with
  | none => rfl
  | some o =>
    have hnot : decide (o < d.geometry.size) = false := Bool.eq_false_of_not_eq_true h
    rw [Draft.claim, hnot]
    rfl

/-- A leaf with its origin ahead is written anew. -/
theorem emit_unit_of_ahead {side : Side} (node : r.nodes[id]? = some (.unit side o))
    (h : ¬o.any (· < d.geometry.size) = true) : r.emit (fuel + 1) id d = d.push (newLeaf side) := by
  have hnode : r.node? id = some (.unit side o) := node
  have hclaim : d.claim (RegionNode.unit side o).origin = (none, d) := claim_of_ahead h
  simp only [Region.emit, hnode, hclaim]
  rfl

/-- A join with its origin ahead is written anew on its operands. -/
theorem emit_join_of_ahead {op : RegionOp} {k : Nat}
    (node : r.nodes[id]? = some (.branch op l (some k) o)) (hop : op ≠ .complement)
    (h : ¬o.any (· < d.geometry.size) = true) : r.emit (fuel + 1) id d =
      let left := r.wrapOperand op l (r.emit fuel l d)
      let right := r.wrapOperand op k (r.emit fuel k left.2)
      right.2.push (freshBinary op left.1 right.1) := by
  have hnode : r.node? id = some (.branch op l (some k) o) := node
  have hclaim : d.claim (RegionNode.branch op l (some k) o).origin = (none, d) := claim_of_ahead h
  simp only [Region.emit, hnode, hclaim]
  cases op with
  | complement => exact absurd rfl hop
  | and | or => rfl

/-- A complement with its origin ahead is written anew on its operand. -/
theorem emit_complement_of_ahead (node : r.nodes[id]? = some (.branch .complement l none o))
    (h : ¬o.any (· < d.geometry.size) = true) :
    r.emit (fuel + 1) id d =
      let operand := r.wrapComplemented l (r.emit fuel l d)
      operand.2.push (.branch (.complement (.ofLiteral "#") operand.1)) := by
  have hnode : r.node? id = some (.branch .complement l none o) := node
  have hclaim : d.claim (RegionNode.branch .complement l none o).origin = (none, d) :=
    claim_of_ahead h
  simp only [Region.emit, hnode, hclaim]
  rfl

end

/-- Parentheses are one more entry. -/
theorem size_bracket (needed : Bool) (w : Nat × Draft) :
    (bracket needed w).2.geometry.size = w.2.geometry.size + needed.toNat := by
  cases needed with
  | false => rfl
  | true => exact size_push ..

/-- Unless an entry that a node comes from is there by then, all nodes are written anew. -/
theorem Spans.emit_eq_put (h : Spans r.nodes id x ids) {fuel : Nat} (hfuel : x.depth ≤ fuel)
    {k : Nat} (hahead : r.entriesBehind fuel d.geometry.size id = some k) :
    r.emit fuel id d = put x d ∧ (put x d).2.geometry.size = k := by
  induction h generalizing fuel d k with
  | @unit id side o node =>
    obtain ⟨n, rfl⟩ : ∃ n, fuel = n + 1 :=
      ⟨fuel - 1, by simp only [RegionTree.depth] at hfuel; omega⟩
    rw [entriesBehind_unit node] at hahead
    split_ifs at hahead with ho
    obtain rfl := Option.some.inj hahead
    exact ⟨emit_unit_of_ahead node ho, size_push ..⟩
  | @join id l rt op o left right is js node isJoin hleft hright ihl ihr =>
    simp only [RegionTree.depth] at hfuel
    obtain ⟨n, rfl⟩ : ∃ n, fuel = n + 1 := ⟨fuel - 1, by omega⟩
    have hfuell : left.depth ≤ n := by omega
    have hfuelr : right.depth ≤ n := by omega
    rw [entriesBehind_join node isJoin] at hahead
    split_ifs at hahead with ho
    obtain ⟨_, hboth, rfl⟩ := Option.map_eq_some_iff.mp hahead
    obtain ⟨_, hbehindl, hbehindr⟩ := Option.bind_eq_some_iff.mp hboth
    obtain ⟨kl, hl, rfl⟩ := Option.map_eq_some_iff.mp hbehindl
    obtain ⟨kr, hr, rfl⟩ := Option.map_eq_some_iff.mp hbehindr
    obtain ⟨hemitl, rfl⟩ := ihl hfuell hl
    rw [hleft.isUnionAt_eq, ← size_bracket] at hr
    obtain ⟨hemitr, rfl⟩ := ihr hfuelr hr
    have hwrapl := hleft.wrapOperand_eq (printsBare_put left d).bare isJoin
    have hwrapr := hright.wrapOperand_eq
      (printsBare_put right (bracket (op != .or && left.isUnion) (put left d)).2).bare isJoin
    constructor
    · simp only [emit_join_of_ahead node isJoin ho, hemitl, hwrapl, hemitr, hwrapr, put]
    · rw [put, Draft.push, size_push, size_bracket, hright.isUnionAt_eq]
  | @complement id l o operand is node hbelow ih =>
    simp only [RegionTree.depth] at hfuel
    obtain ⟨n, rfl⟩ : ∃ n, fuel = n + 1 := ⟨fuel - 1, by omega⟩
    have hfuelc : operand.depth ≤ n := by omega
    rw [entriesBehind_complement node] at hahead
    split_ifs at hahead with ho
    obtain ⟨kc, hc, rfl⟩ := Option.map_eq_some_iff.mp hahead
    obtain ⟨hemit, hsize⟩ := ih hfuelc hc
    constructor
    · rw [emit_complement_of_ahead node ho, hemit,
        hbelow.wrapComplemented_eq (printsBare_put operand d).bare]
      rfl
    · rw [put, Draft.push, size_push, size_bracket, hsize, hbelow.isCellAt_eq]

/-- Without links there is none to an entry that is there. -/
theorem Spans.exists_entriesBehind (h : Spans r.nodes id x ids)
    (bare : ∀ i ∈ ids, ∀ n ∈ r.nodes[i]?, n.origin = none) (fuel written : Nat) :
    ∃ k, r.entriesBehind fuel written id = some k := by
  induction h generalizing fuel written with
  | @unit id side o node =>
    cases fuel with
    | zero => exact ⟨_, rfl⟩
    | succ fuel =>
      obtain rfl : o = none := bare id (List.mem_singleton_self _) _ node
      exact ⟨_, entriesBehind_unit node⟩
  | @join id l k op o left right is js node isJoin _ _ ihl ihr =>
    cases fuel with
    | zero => exact ⟨_, rfl⟩
    | succ fuel =>
      rw [List.forall_mem_cons, List.forall_mem_append] at bare
      obtain ⟨htop, hl, hr⟩ := bare
      obtain rfl : o = none := htop _ node
      obtain ⟨kl, hl⟩ := ihl hl fuel written
      obtain ⟨kr, hr⟩ := ihr hr fuel (kl + (op != .or && r.isUnionAt l).toNat)
      refine ⟨kr + (op != .or && r.isUnionAt k).toNat + 1, ?_⟩
      rw [entriesBehind_join node isJoin, hl, Option.map_some, Option.bind_some, hr]
      rfl
  | @complement id c o operand is node _ ih =>
    cases fuel with
    | zero => exact ⟨_, rfl⟩
    | succ fuel =>
      rw [List.forall_mem_cons] at bare
      obtain rfl : o = none := bare.1 _ node
      obtain ⟨k, hk⟩ := ih bare.2 fuel written
      refine ⟨k + (!r.isCellAt c).toNat + 1, ?_⟩
      rw [entriesBehind_complement node, hk]
      rfl

/-- A tree without links is written anew. -/
theorem Spans.emit_of_bare (h : Spans r.nodes id x ids)
    (bare : ∀ i ∈ ids, ∀ n ∈ r.nodes[i]?, n.origin = none) {fuel : Nat} (hfuel : x.depth ≤ fuel)
    (d : Draft) : r.emit fuel id d = put x d := by
  obtain ⟨k, hk⟩ := h.exists_entriesBehind bare fuel d.geometry.size
  exact (h.emit_eq_put hfuel hk).1

/-- The text of a region that was written from scratch. -/
theorem text_toGeometry (h : r.IsTree x) (horigins : ∀ n ∈ r.nodes, n.origin = none)
    (t : Tolerance) : (r.toGeometry.render t).text = x.written := by
  obtain ⟨ids, hspans, hnodup⟩ := h
  have hemit := hspans.emit_of_bare (fun i _ n hn ↦ horigins n (Array.mem_of_getElem? hn))
    (hspans.depth_le_size hnodup) ⟨.empty, []⟩
  obtain ⟨⟨tree, hgrows, htext⟩, htrailing⟩ := (printsBare_put x ⟨.empty, []⟩).prints
  rw [← hemit] at hgrows htrailing
  have hempty : Geometry.empty.size = 0 := rfl
  have hholds := hgrows.holds
  rw [hempty, Nat.sub_zero, ← List.range_eq_range'] at hholds
  have htree : r.toGeometry.IsTree tree := ⟨hholds.congr fun _ _ ↦ rfl⟩
  have hnone : r.toGeometry.trailing = none := htrailing
  rw [htree.render_eq, hnone, Rendered.text_append, htext]
  exact String.append_empty

end Region

end TransportDeck
