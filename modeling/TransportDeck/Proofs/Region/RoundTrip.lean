import TransportDeck.Proofs.Grammar.Geometry
import TransportDeck.Proofs.Region.Emission

/-!
# Regions written back

The region of a cell may be edited at will and written into the geometry that it was read from.
What is read from there again is the region, unless it has a side that no geometry can name.
-/

namespace TransportDeck

namespace Geometry

variable {g : Geometry} {tree : GeometryTree} {ss : List (List Nat)}

/-- Below the root there is a tree, and the entries are as they are read. -/
structure IsSound (g : Geometry) (tree : GeometryTree) : Prop where
  holds : ∃ ids, g.Holds g.root tree ids ∧ ids.Nodup
  shaped : g.IsShaped

theorem IsTree.isSound (h : g.IsTree tree) (hread : tree.IsRead) : g.IsSound tree := by
  refine ⟨⟨_, h.holds, List.nodup_range⟩, fun i e hi ↦ ?_⟩
  have hlt : i < g.size := (Array.getElem?_eq_some_iff.mp hi).1
  exact h.holds.isShaped hread i (List.mem_range.mpr hlt) e hi

/-- The geometry was read from tokens of a text, wherever in the text they stand. -/
def IsParsed (g : Geometry) : Prop :=
  ∃ (gr : Grammar) (mode : LexMode) (text : String) (tokens : List Token) (c c' : Cursor),
    tokenize mode text = .ok tokens ∧ c.stream.tokens = tokens.toArray ∧
      (Production.geometry gr).run c = (.ok g, c')

theorem IsParsed.isSound (h : g.IsParsed) : ∃ tree, g.IsSound tree := by
  obtain ⟨gr, mode, text, tokens, c, c', htokens, hc, hrun⟩ := h
  have hlex : c.IsLexed := by
    intro t ht
    have hmem : t ∈ c.stream.tokens.toList := List.mem_of_mem_drop ht
    rw [hc] at hmem
    exact Lexer.spells_of_tokensFrom htokens t hmem
  obtain ⟨-, -, -, tree, htree, hread, -⟩ := Production.Reads.geometry gr hlex g c' hrun
  exact ⟨tree, htree.isSound hread⟩

namespace IsSound

/-- Reading succeeds exactly if the tree has a region, and then nodes come from heads of strands. -/
theorem reading (h : g.IsSound tree) : ∃ ss, (⟨g, []⟩ : Region.Draft).Ready ss ∧
    ((∃ x r, tree.region? = some x ∧ Region.ofGeometry g = .ok r ∧ r.Linked (Heads ss) x) ∨
      (tree.region? = none ∧ ∃ e, Region.ofGeometry g = .error e)) := by
  obtain ⟨ids, hholds, hnodup⟩ := h.holds
  obtain ⟨s, ss, hstrands, hperm⟩ := hholds.strands
  exact ⟨s :: ss, ⟨hperm.nodup_iff.mpr hnodup, hstrands.nests, h.shaped⟩,
    Region.ofGeometry_spec hstrands (hholds.depth_le_size hnodup)⟩

theorem exists_strands (h : g.IsSound tree) : ∃ ss, (⟨g, []⟩ : Region.Draft).Ready ss ∧
    ∀ r, Region.ofGeometry g = .ok r → ∃ x, r.Linked (Heads ss) x ∧ x.IsProper := by
  obtain ⟨ss, hready, ⟨x, r', hx, hr', hlinked⟩ | ⟨-, e, he⟩⟩ := h.reading
  · refine ⟨ss, hready, fun r hr ↦ ?_⟩
    obtain rfl := Except.ok.inj (hr.symm.trans hr')
    exact ⟨x, hlinked, GeometryTree.isProper_of_region? hx⟩
  · refine ⟨ss, hready, fun r hr ↦ ?_⟩
    rw [he] at hr
    cases hr

theorem ofGeometry (h : g.IsSound tree) {x : RegionTree} (hx : tree.region? = some x) :
    ∃ r, Region.ofGeometry g = .ok r ∧ r.IsTree x := by
  obtain ⟨ss, -, ⟨x', r, hx', hr, hlinked⟩ | ⟨hnone, -⟩⟩ := h.reading
  · obtain rfl := Option.some.inj (hx.symm.trans hx')
    exact ⟨r, hr, hlinked.isTree⟩
  · rw [hx] at hnone
    cases hnone

end IsSound

end Geometry

namespace Region

open TransportDeck.Geometry

variable {g : Geometry} {r : Region} {x : RegionTree} {ss : List (List Nat)}

/-- Writing leaves a geometry that can be written into again. -/
theorem Linked.writeInto (hg : (⟨g, []⟩ : Draft).Ready ss) (h : r.Linked (Heads ss) x) :
    ∃ tree, (r.writeInto g).IsSound tree ∧ tree.Describes x := by
  obtain ⟨ids, hspans, hnodup⟩ := h.isTree
  obtain ⟨new, tree, js, hwritten, hdescribes⟩ :=
    hspans.emit h.origins (hspans.depth_le_size hnodup) hg
  refine ⟨tree, ⟨⟨js, ?_, hwritten.nodup⟩, hwritten.spends.ready.shaped⟩, hdescribes⟩
  exact hwritten.holds.congr fun _ _ ↦ rfl

/-- The regions that edits of the region of a geometry come to.  The operands are regions that were
built from sides, regions that were taken over from elsewhere, and copies of what there is. -/
inductive Edited (g : Geometry) : Region → Prop where
  | read {r : Region} (read : ofGeometry g = .ok r) : Edited g r
  | ofSide (s : Side) : Edited g (.ofSide s)
  | outsideCell (n : Int) : Edited g (.outsideCell n)
  | imported {r : Region} {tree : RegionTree} (isTree : r.IsTree tree) : Edited g r.detached
  | setCell {r : Region} (h : Edited g r) (cell : Option Int) : Edited g (r.setCell cell)
  | copy {r : Region} (h : Edited g r) : Edited g r.compact
  | and {a b : Region} (left : Edited g a) (right : Edited g b) : Edited g (a.and b)
  | or {a b : Region} (left : Edited g a) (right : Edited g b) : Edited g (a.or b)
  | complement {r : Region} (h : Edited g r) : Edited g r.complement
  | andWith {a b : Region} (left : Edited g a) (right : Edited g b) : Edited g (a.andWith b)
  | orWith {a b : Region} (left : Edited g a) (right : Edited g b) : Edited g (a.orWith b)

/-- Every edit keeps the region a tree, and the links of its nodes. -/
theorem Edited.linked (h : Edited g r) {L : Bool → Nat → Prop}
    (hread : ∀ r, ofGeometry g = .ok r → ∃ x, r.Linked L x) : ∃ x, r.Linked L x := by
  have hand : RegionOp.and ≠ .complement := by decide
  have hor : RegionOp.or ≠ .complement := by decide
  induction h with
  | read read => exact hread _ read
  | ofSide s => exact ⟨_, .ofSide s⟩
  | outsideCell n => exact ⟨_, .outsideCell n⟩
  | imported isTree =>
    exact ⟨_, isTree.linked.detached⟩
  | setCell _ cell ih =>
    obtain ⟨x, hx⟩ := ih
    exact ⟨x, hx.setCell cell⟩
  | copy _ ih =>
    obtain ⟨x, hx⟩ := ih
    exact ⟨x, hx.compact⟩
  | complement _ ih =>
    obtain ⟨x, hx⟩ := ih
    exact ⟨_, hx.complement⟩
  | and _ _ ihl ihr =>
    obtain ⟨x, hx⟩ := ihl
    obtain ⟨y, hy⟩ := ihr
    exact ⟨_, hx.combine hand hy⟩
  | or _ _ ihl ihr =>
    obtain ⟨x, hx⟩ := ihl
    obtain ⟨y, hy⟩ := ihr
    exact ⟨_, hx.combine hor hy⟩
  | andWith _ _ ihl ihr =>
    obtain ⟨x, hx⟩ := ihl
    obtain ⟨y, hy⟩ := ihr
    exact ⟨_, hx.graft hand hy⟩
  | orWith _ _ ihl ihr =>
    obtain ⟨x, hx⟩ := ihl
    obtain ⟨y, hy⟩ := ihr
    exact ⟨_, hx.graft hor hy⟩

/-- An edited region that is written into its geometry can be read from there.  It has the same
sides exactly if it is proper, and then it means the same. -/
theorem Edited.ofGeometry_writeInto (hg : g.IsParsed) (h : Edited g r) :
    ∃ r', ofGeometry (r.writeInto g) = .ok r' ∧ (r'.sides = r.sides ↔ r.IsProper) ∧
      (r.IsProper → ∀ inside, r'.holds inside = r.holds inside) := by
  obtain ⟨tree, hsound⟩ := hg.isSound
  obtain ⟨ss, hready, hread⟩ := hsound.exists_strands
  obtain ⟨x, hlinked⟩ := h.linked fun r hr ↦ (hread r hr).imp fun _ hx ↦ hx.1
  -- The region is the same tree in whatever way it was found to be one.
  have hreading {x : RegionTree} (hx : r.IsTree x) : ∃ r' y, ofGeometry (r.writeInto g) = .ok r' ∧
      r'.IsTree y ∧ y.IsReading x := by
    obtain ⟨tree', hsound', hdescribes⟩ := (⟨hx, hlinked.origins⟩ : r.Linked _ x).writeInto hready
    obtain ⟨y, hy, hreading⟩ := hdescribes.region
    obtain ⟨r', hr', hr'y⟩ := hsound'.ofGeometry hy
    exact ⟨r', y, hr', hr'y, hreading⟩
  obtain ⟨r', y, hr', hy, hxy⟩ := hreading hlinked.isTree
  have hproper : r.IsProper → x.IsProper := by
    rintro ⟨z, hz, hproper⟩
    obtain ⟨r'', y', hr'', hy', hzy⟩ := hreading hz
    obtain rfl := Except.ok.inj (hr'.symm.trans hr'')
    rw [← hxy.sides_eq_iff, ← hy.sides_eq, hy'.sides_eq, hzy.sides_eq_iff.mpr hproper,
      ← hz.sides_eq, hlinked.isTree.sides_eq]
  refine ⟨r', hr', ?_, fun hr inside ↦ ?_⟩
  · rw [hy.sides_eq, hlinked.isTree.sides_eq, hxy.sides_eq_iff]
    exact ⟨fun hx ↦ ⟨x, hlinked.isTree, hx⟩, hproper⟩
  · rw [hy.holds_eq, hlinked.isTree.holds_eq, hxy.holds_eq (hproper hr)]

/-- The region of a geometry after an edit, and what is read once it was written. -/
def rewritten? (text : String) (edit : Region → Region) : Option (Region × Region) :=
  match tokenize .cell text with
  | .error _ => none
  | .ok tokens =>
    match (Production.geometry .cell).run (.of (.of tokens)) with
    | (.error _, _) => none
    | (.ok g, _) =>
      match ofGeometry g with
      | .error _ => none
      | .ok r => (ofGeometry ((edit r).writeInto g)).toOption.map fun r' ↦ (edit r, r')

theorem exists_of_rewritten? (text : String) (edit : Region → Region) (p : Region → Region → Bool)
    (h : (rewritten? text edit).any (fun (r, r') ↦ p r r') = true) :
    ∃ g r r', g.IsParsed ∧ ofGeometry g = .ok r ∧ ofGeometry ((edit r).writeInto g) = .ok r' ∧
      p (edit r) r' = true := by
  obtain ⟨⟨a, b⟩, hab, hp⟩ := (Option.any_eq_true _ _).mp h
  unfold rewritten? at hab
  split at hab
  · cases hab
  next tokens htokens =>
  split at hab
  · cases hab
  next g c' hrun =>
  split at hab
  · cases hab
  next r hr =>
  cases hread : ofGeometry ((edit r).writeInto g) with
  | error e =>
    rw [hread] at hab
    cases hab
  | ok r' =>
    rw [hread] at hab
    cases hab
    exact ⟨g, r, b, ⟨.cell, .cell, text, tokens, _, c', htokens, rfl, hrun⟩, hr, hread, hp⟩

/-- Runs, parentheses, and the region twice: once lengthened in place, and once as it was. -/
theorem Edited.ofGeometry_writeInto_of_copies : ∃ g r r', g.IsParsed ∧ Edited g r ∧
    ofGeometry (r.writeInto g) = .ok r' ∧ r'.sides = r.sides ∧
      ∀ inside, r'.holds inside = r.holds inside := by
  obtain ⟨g, r, r', hg, hr, hr', hsides⟩ := exists_of_rewritten? "1 2r (-3 : #4)"
    (fun r ↦ ((r.setCell (some 1)).andWith (.surface 5)).or (r.setCell (some 1)))
    (fun r r' ↦ r'.sides = r.sides) (by decide +kernel)
  have hcell : Edited g (r.setCell (some 1)) := .setCell (.read hr) _
  have hedited := (hcell.andWith (.ofSide (.surface 5))).or hcell
  obtain ⟨r'', hr'', hproper, hholds⟩ := Edited.ofGeometry_writeInto hg hedited
  obtain rfl := Except.ok.inj (hr'.symm.trans hr'')
  have hsides := of_decide_eq_true hsides
  exact ⟨g, _, r', hg, hedited, hr', hsides, hholds (hproper.mp hsides)⟩

/-- The inside of a cell that is no operand of a complement is read as the side of a surface. -/
theorem Edited.sides_ne_of_cell : ∃ g r r', g.IsParsed ∧ Edited g r ∧
    ofGeometry (r.writeInto g) = .ok r' ∧ r'.sides ≠ r.sides := by
  obtain ⟨g, r, r', hg, hr, hr', hsides⟩ := exists_of_rewritten? "-1 -2"
    (fun r ↦ (r.setCell (some 1)).andWith (.ofSide (.cell 5)))
    (fun r r' ↦ r'.sides ≠ r.sides) (by decide +kernel)
  exact ⟨g, _, r', hg, .andWith (.setCell (.read hr) _) (.ofSide _), hr', of_decide_eq_true hsides⟩

end Region

end TransportDeck
