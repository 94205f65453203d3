import TransportDeck.Node.Geometry
import TransportDeck.Proofs.Node.Source

/-!
# Geometries as trees

The entries of a geometry stand in an arena.  Below a place of it there is a tree if the operands of
every branch are trees in turn; the places of its nodes are listed along with it, operands first.
-/

namespace TransportDeck

inductive GeometryTree where
  | leaf (f : Field)
  | run (s : Shorthand)
  | binary (op : GeometryOp) (left : GeometryTree) (mark : Layout) (right : GeometryTree)
  | complement (mark : Layout) (operand : GeometryTree)
  | group (opening : Layout) (inner : GeometryTree) (closing : Layout)

namespace GeometryTree

def depth : GeometryTree → Nat
  | leaf _ | run _ => 1
  | binary _ l _ r => max l.depth r.depth + 1
  | complement _ t | group _ t _ => t.depth + 1

/-! ## Text -/

def source : GeometryTree → String
  | leaf f => f.source
  | run s => s.source
  | binary _ l mark r => l.source ++ mark.text ++ r.source
  | complement mark t => mark.text ++ t.source
  | group opening t closing => opening.text ++ t.source ++ closing.text

def render (t : Tolerance) : GeometryTree → Rendered
  | leaf f => f.render t
  | run s => s.render t
  | binary _ l mark r => l.render t ++ .ofText mark.text ++ r.render t
  | complement mark u => .ofText mark.text ++ u.render t
  | group opening u closing => .ofText opening.text ++ u.render t ++ .ofText closing.text

def IsRead : GeometryTree → Prop
  | leaf f => f.IsRead ∧ f.IsIdentifier
  | run s => s.IsRead
  | binary _ l _ r => l.IsRead ∧ r.IsRead
  | complement _ t | group _ t _ => t.IsRead

def Faithful : GeometryTree → Prop
  | leaf _ => True
  | run s => s.Faithful
  | binary _ l _ r => l.Faithful ∧ r.Faithful
  | complement _ t | group _ t _ => t.Faithful

end GeometryTree

namespace Geometry

variable {g g' : Geometry} {id : Nat} {tree : GeometryTree} {ids : List Nat}

/-- Below the place stands the tree, and these are the places of its nodes. -/
inductive Holds (g : Geometry) : Nat → GeometryTree → List Nat → Prop where
  | leaf {id : Nat} {f : Field} (entry : g.entry? id = some (.leaf f)) : Holds g id (.leaf f) [id]
  | run {id : Nat} {s : Shorthand} (entry : g.entry? id = some (.run s)) : Holds g id (.run s) [id]
  | binary {id l r : Nat} {op : GeometryOp} {mark : Layout} {left right : GeometryTree}
      {is js : List Nat} (entry : g.entry? id = some (.branch (.binary op l mark r)))
      (isBinary : op.isBinary = true) (atLeft : Holds g l left is) (atRight : Holds g r right js) :
      Holds g id (.binary op left mark right) (is ++ js ++ [id])
  | complement {id c : Nat} {mark : Layout} {operand : GeometryTree} {is : List Nat}
      (entry : g.entry? id = some (.branch (.complement mark c))) (below : Holds g c operand is) :
      Holds g id (.complement mark operand) (is ++ [id])
  | group {id c : Nat} {opening closing : Layout} {inner : GeometryTree} {is : List Nat}
      (entry : g.entry? id = some (.branch (.group opening c closing)))
        (below : Holds g c inner is) :
      Holds g id (.group opening inner closing) (is ++ [id])

/-- Only the entries of the tree matter. -/
theorem Holds.congr (h : g.Holds id tree ids) (heq : ∀ i ∈ ids, g'.entry? i = g.entry? i) :
    g'.Holds id tree ids := by
  induction h with
  | leaf entry => exact .leaf ((heq _ (List.mem_singleton_self _)).trans entry)
  | run entry => exact .run ((heq _ (List.mem_singleton_self _)).trans entry)
  | binary entry isBinary _ _ ihl ihr =>
    simp only [List.forall_mem_append, List.forall_mem_singleton] at heq
    exact .binary (heq.2.trans entry) isBinary (ihl heq.1.1) (ihr heq.1.2)
  | complement entry _ ih =>
    simp only [List.forall_mem_append, List.forall_mem_singleton] at heq
    exact .complement (heq.2.trans entry) (ih heq.1)
  | group entry _ ih =>
    simp only [List.forall_mem_append, List.forall_mem_singleton] at heq
    exact .group (heq.2.trans entry) (ih heq.1)

/-- A new entry does not change the others. -/
theorem entry?_push_of_lt {e : GeometryEntry} {i : Nat} (h : i < g.size) :
    Geometry.entry? (g.push e) i = g.entry? i := by
  have hne : i ≠ g.entries.size := Nat.ne_of_lt h
  simp [push, entry?, Array.getElem?_push, hne]

/-- The new entry stands at the end. -/
theorem entry?_push_size (g : Geometry) (e : GeometryEntry) :
    Geometry.entry? (g.push e) g.size = some e := Array.getElem?_push_size

theorem size_push (g : Geometry) (e : GeometryEntry) : (g.push e).size = g.size + 1 :=
  Array.size_push _

/-- The places of a tree lie inside the geometry. -/
theorem Holds.lt_size (h : g.Holds id tree ids) : ∀ i ∈ ids, i < g.size := by
  have lt {id : Nat} {e : GeometryEntry} (entry : g.entry? id = some e) : id < g.size :=
    (Array.getElem?_eq_some_iff.mp entry).1
  induction h with
  | leaf entry => simpa using lt entry
  | run entry => simpa using lt entry
  | binary entry _ _ _ ihl ihr =>
    simpa only [List.forall_mem_append, List.forall_mem_singleton] using ⟨⟨ihl, ihr⟩, lt entry⟩
  | complement entry _ ih =>
    simpa only [List.forall_mem_append, List.forall_mem_singleton] using ⟨ih, lt entry⟩
  | group entry _ ih =>
    simpa only [List.forall_mem_append, List.forall_mem_singleton] using ⟨ih, lt entry⟩

/-- The entries of a tree stay when others are placed behind them. -/
theorem Holds.push (h : g.Holds id tree ids) (e : GeometryEntry) :
    Geometry.Holds (g.push e) id tree ids :=
  h.congr fun i hi ↦ entry?_push_of_lt (h.lt_size i hi)

/-- A tree has its own root among its places. -/
theorem Holds.mem (h : g.Holds id tree ids) : id ∈ ids := by
  cases h <;> simp

/-- A tree is no deeper than it has places. -/
theorem Holds.depth_le (h : g.Holds id tree ids) : tree.depth ≤ ids.length := by
  induction h with
  | leaf | run => exact le_rfl
  | binary _ _ _ _ ihl ihr =>
    simp only [GeometryTree.depth, List.length_append, List.length_singleton]
    omega
  | complement _ _ ih | group _ _ ih =>
    simp only [GeometryTree.depth, List.length_append, List.length_singleton]
    omega

/-- The fuel of a walk is enough for every tree of the geometry. -/
theorem Holds.depth_le_size (h : g.Holds id tree ids) (hnodup : ids.Nodup) :
    tree.depth ≤ g.size := by
  have hsub : ids ⊆ List.range g.size := fun i hi ↦ List.mem_range.mpr (h.lt_size i hi)
  have hlength : ids.length ≤ g.size := by simpa using (hnodup.subperm hsub).length_le
  exact h.depth_le.trans hlength

/-! ## Growth -/

/-- Two stretches of places are one. -/
theorem range'_append {a b c : Nat} (hab : a ≤ b) (hbc : b ≤ c) :
    List.range' a (b - a) ++ List.range' b (c - b) = List.range' a (c - a) := by
  have hb : b = a + 1 * (b - a) := by omega
  have hc : c - a = (b - a) + (c - b) := by omega
  rw [hc]
  nth_rewrite 2 [hb]
  exact List.range'_append

theorem range'_concat {a b : Nat} (hab : a ≤ b) :
    List.range' a (b - a) ++ [b] = List.range' a (b + 1 - a) := by
  rw [← range'_append hab (Nat.le_add_right b 1), Nat.add_sub_cancel_left]
  rfl

/-- A tree was put behind the entries that were there, operands before operators. -/
structure Grows (g g' : Geometry) (id : Nat) (tree : GeometryTree) : Prop where
  size_le : g.size ≤ g'.size
  frame : ∀ i < g.size, g'.entry? i = g.entry? i
  holds : g'.Holds id tree (List.range' g.size (g'.size - g.size))

namespace Grows

variable {g₁ g₂ : Geometry} {l r : Nat} {left right : GeometryTree}

/-- What has grown keeps the entries that were there before, with one more behind it. -/
theorem frame_push (h : g.Grows g₁ id tree) (e : GeometryEntry) :
    ∀ i < g.size, Geometry.entry? (g₁.push e) i = g.entry? i := by
  intro i hi
  rw [entry?_push_of_lt (Nat.lt_of_lt_of_le hi h.size_le), h.frame i hi]

theorem size_le_push (h : g.Grows g₁ id tree) (e : GeometryEntry) : g.size ≤ (g₁.push e).size := by
  rw [size_push]
  exact Nat.le_succ_of_le h.size_le

/-- An entry that stands on nothing is a tree of one place. -/
theorem single (g : Geometry) {e : GeometryEntry}
    (h : Geometry.Holds (g.push e) g.size tree [g.size]) : g.Grows (g.push e) g.size tree where
  size_le := by rw [size_push]; exact Nat.le_succ _
  frame := fun i hi ↦ entry?_push_of_lt hi
  holds := by
    rw [size_push, Nat.add_sub_cancel_left]
    exact h

theorem leaf (g : Geometry) (f : Field) : g.Grows (g.push (.leaf f)) g.size (.leaf f) :=
  single g (.leaf (entry?_push_size _ _))

theorem run (g : Geometry) (s : Shorthand) : g.Grows (g.push (.run s)) g.size (.run s) :=
  single g (.run (entry?_push_size _ _))

/-- A complement grows on top of its operand. -/
theorem complement (h : g.Grows g₁ id tree) (mark : Layout) :
    g.Grows (g₁.push (.branch (.complement mark id))) g₁.size (.complement mark tree) where
  size_le := h.size_le_push _
  frame := h.frame_push _
  holds := by
    rw [size_push, ← range'_concat h.size_le]
    exact .complement (entry?_push_size _ _) (h.holds.push _)

/-- Parentheses grow on top of what they enclose. -/
theorem group (h : g.Grows g₁ id tree) (opening closing : Layout) :
    g.Grows (g₁.push (.branch (.group opening id closing))) g₁.size
      (.group opening tree closing) where
  size_le := h.size_le_push _
  frame := h.frame_push _
  holds := by
    rw [size_push, ← range'_concat h.size_le]
    exact .group (entry?_push_size _ _) (h.holds.push _)

/-- A binary branch grows on top of its operands, of which the second has grown behind the first. -/
theorem binary {op : GeometryOp} (hl : g.Grows g₁ l left) (hop : op.isBinary = true)
    (hr : g₁.Grows g₂ r right) (mark : Layout) :
    g.Grows (g₂.push (.branch (.binary op l mark r))) g₂.size (.binary op left mark right) where
  size_le := by
    rw [size_push]
    exact Nat.le_succ_of_le (hl.size_le.trans hr.size_le)
  frame := by
    intro i hi
    rw [hr.frame_push _ i (Nat.lt_of_lt_of_le hi hl.size_le), hl.frame i hi]
  holds := by
    have hleft : g₂.Holds l left (List.range' g.size (g₁.size - g.size)) :=
      hl.holds.congr fun i hi ↦ hr.frame i (hl.holds.lt_size i hi)
    rw [size_push, ← range'_concat (hl.size_le.trans hr.size_le),
      ← range'_append hl.size_le hr.size_le]
    exact .binary (entry?_push_size _ _) hop (hleft.push _) (hr.holds.push _)

end Grows

/-! ## Text -/

/-- The source below a place; no path is longer than the arena. -/
def sourceFrom (g : Geometry) : (fuel : Nat) → Nat → String
  | 0, _ => ""
  | fuel + 1, id =>
    match g.entry? id with
    | none => ""
    | some (.leaf f) => f.source
    | some (.run s) => s.source
    | some (.branch b) =>
      let left := g.sourceFrom fuel b.left
      match b.op with
      | .intersection | .union =>
        left ++ b.opLayout.text ++ (b.right.map (g.sourceFrom fuel)).getD ""
      | .complement => b.opLayout.text ++ left
      | .group => b.opLayout.text ++ left ++ layoutText b.closing

def source (g : Geometry) : String := g.sourceFrom g.size g.root ++ layoutText g.trailing

/-- Every run in the geometry is written as its source. -/
def Faithful (g : Geometry) : Prop := ∀ s, .run s ∈ g.entries → s.Faithful

/-- The text below a place is that of the tree that is there. -/
theorem Holds.sourceFrom_eq (h : g.Holds id tree ids) {fuel : Nat} (hfuel : tree.depth ≤ fuel) :
    g.sourceFrom fuel id = tree.source := by
  induction h generalizing fuel with
  | leaf entry | run entry =>
    obtain ⟨n, rfl⟩ : ∃ n, fuel = n + 1 :=
      ⟨fuel - 1, by simp only [GeometryTree.depth] at hfuel; omega⟩
    simp only [sourceFrom, entry, GeometryTree.source]
  | @binary id l r op mark left right is js entry isBinary _ _ ihl ihr =>
    simp only [GeometryTree.depth] at hfuel
    obtain ⟨n, rfl⟩ : ∃ n, fuel = n + 1 := ⟨fuel - 1, by omega⟩
    have hl := @ihl n (by omega)
    have hr := @ihr n (by omega)
    simp only [sourceFrom, entry, GeometryTree.source, Branch.binary, hl, Option.map_some, hr,
      Option.getD_some]
    cases op with
    | intersection | union => rfl
    | complement | group => cases isBinary
  | complement entry _ ih =>
    simp only [GeometryTree.depth] at hfuel
    obtain ⟨n, rfl⟩ : ∃ n, fuel = n + 1 := ⟨fuel - 1, by omega⟩
    have hc := @ih n (by omega)
    simp only [sourceFrom, entry, GeometryTree.source, Branch.complement, hc]
  | group entry _ ih =>
    simp only [GeometryTree.depth] at hfuel
    obtain ⟨n, rfl⟩ : ∃ n, fuel = n + 1 := ⟨fuel - 1, by omega⟩
    have hc := @ih n (by omega)
    simp only [sourceFrom, entry, GeometryTree.source, Branch.group, hc]
    rfl

/-- What is printed below a place is the tree that is there. -/
theorem Holds.renderFrom_eq (h : g.Holds id tree ids) (t : Tolerance) {fuel : Nat}
    (hfuel : tree.depth ≤ fuel) : g.renderFrom t fuel id = tree.render t := by
  induction h generalizing fuel with
  | leaf entry | run entry =>
    obtain ⟨n, rfl⟩ : ∃ n, fuel = n + 1 :=
      ⟨fuel - 1, by simp only [GeometryTree.depth] at hfuel; omega⟩
    simp only [renderFrom, entry, GeometryTree.render]
  | @binary id l r op mark left right is js entry isBinary _ _ ihl ihr =>
    simp only [GeometryTree.depth] at hfuel
    obtain ⟨n, rfl⟩ : ∃ n, fuel = n + 1 := ⟨fuel - 1, by omega⟩
    have hl := @ihl n (by omega)
    have hr := @ihr n (by omega)
    simp only [renderFrom, entry, GeometryTree.render, Branch.binary, isBinary, hl, hr]
    cases op with
    | intersection | union => rfl
    | complement | group => cases isBinary
  | complement entry _ ih =>
    simp only [GeometryTree.depth] at hfuel
    obtain ⟨n, rfl⟩ : ∃ n, fuel = n + 1 := ⟨fuel - 1, by omega⟩
    have hc := @ih n (by omega)
    simp only [renderFrom, entry, GeometryTree.render, Branch.complement, hc]
    rfl
  | group entry _ ih =>
    simp only [GeometryTree.depth] at hfuel
    obtain ⟨n, rfl⟩ : ∃ n, fuel = n + 1 := ⟨fuel - 1, by omega⟩
    have hc := @ih n (by omega)
    simp only [renderFrom, entry, GeometryTree.render, Branch.group, hc]
    rfl

/-- A tree is faithful if each of its runs is. -/
theorem Holds.faithful_iff (h : g.Holds id tree ids) :
    tree.Faithful ↔ ∀ i ∈ ids, ∀ s, g.entry? i = some (.run s) → s.Faithful := by
  have branch {i : Nat} {b : Branch} (entry : g.entry? i = some (.branch b)) :
      ∀ s, g.entry? i = some (.run s) → s.Faithful := by
    intro s hs
    rw [entry] at hs
    cases hs
  induction h with
  | leaf entry =>
    refine iff_of_true trivial ?_
    rintro i hi s hs
    rw [List.mem_singleton.mp hi, entry] at hs
    cases hs
  | run entry =>
    simp only [List.forall_mem_singleton, entry, Option.some.injEq, GeometryEntry.run.injEq]
    exact ⟨fun h s hs ↦ hs ▸ h, fun h ↦ h _ rfl⟩
  | binary entry _ _ _ ihl ihr =>
    simp only [List.forall_mem_append, List.forall_mem_singleton, GeometryTree.Faithful, ihl, ihr]
    exact ⟨fun h ↦ ⟨h, branch entry⟩, And.left⟩
  | complement entry _ ih | group entry _ ih =>
    simp only [List.forall_mem_append, List.forall_mem_singleton, GeometryTree.Faithful, ih]
    exact ⟨fun h ↦ ⟨h, branch entry⟩, And.left⟩

/-- The whole arena is one tree. -/
structure IsTree (g : Geometry) (tree : GeometryTree) : Prop where
  holds : g.Holds g.root tree (List.range g.size)

variable (h : g.IsTree tree)
include h

/-- A geometry has the text of its tree, and of the layout behind it. -/
theorem IsTree.source_eq : g.source = tree.source ++ layoutText g.trailing := by
  have hdepth := h.holds.depth_le
  rw [List.length_range] at hdepth
  rw [source, h.holds.sourceFrom_eq hdepth]

/-- A geometry is printed as its tree, and the layout behind it. -/
theorem IsTree.render_eq (t : Tolerance) :
    g.render t = tree.render t ++ .ofText (layoutText g.trailing) := by
  have hdepth := h.holds.depth_le
  rw [List.length_range] at hdepth
  rw [render, h.holds.renderFrom_eq t hdepth]

/-- A geometry is faithful if its tree is. -/
theorem IsTree.faithful_iff : g.Faithful ↔ tree.Faithful := by
  rw [h.holds.faithful_iff, Faithful]
  constructor
  · intro hall i _ s hs
    exact hall s (Array.mem_of_getElem? hs)
  · intro hall s hs
    obtain ⟨i, hi, heq⟩ := Array.mem_iff_getElem.mp hs
    exact hall i (List.mem_range.mpr hi) s (Array.getElem?_eq_some_iff.mpr ⟨hi, heq⟩)

end Geometry

end TransportDeck
