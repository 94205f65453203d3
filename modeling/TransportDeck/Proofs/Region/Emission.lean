import TransportDeck.Proofs.Region.Grafting
import TransportDeck.Proofs.Region.Writing

/-!
# Emission

What is written for a region is read as the region again, side by side, as far as its sides can be
written: a cell has no side but right below a complement.
-/

namespace TransportDeck

namespace RegionTree

/-- What a region is read as after it was written: it has as many sides, and exactly if the region
is proper they are the same, in the same order. -/
structure IsReading (y x : RegionTree) : Prop where
  length_eq : y.sides.length = x.sides.length
  sides_eq_iff : y.sides = x.sides ↔ x.IsProper
  holds_eq : x.IsProper → ∀ inside, y.holds inside = x.holds inside

namespace IsReading

variable {x x' y y' : RegionTree}

theorem unit (s : Side) : (unit (.surface s.written)).IsReading (unit s) where
  length_eq := rfl
  sides_eq_iff := by
    constructor
    · intro h
      exact ⟨s.written, (List.singleton_inj.mp h).symm⟩
    · rintro ⟨n, rfl⟩
      rw [Side.written_surface]
  holds_eq := by
    rintro ⟨n, rfl⟩ inside
    rw [Side.written_surface]

theorem cell {s : Side} (hs : s.isCell = true) :
    (complement (.unit (.cell s.written))).IsReading (complement (.unit s)) where
  length_eq := rfl
  sides_eq_iff := by
    constructor
    · intro h
      exact .inr ⟨s.written, congrArg RegionTree.unit (List.singleton_inj.mp h).symm⟩
    · rintro (⟨n, rfl⟩ | ⟨n, ⟨⟩⟩)
      · cases hs
      · rw [Side.cell_written]
  holds_eq := by
    rintro (⟨n, rfl⟩ | ⟨n, ⟨⟩⟩) inside
    · cases hs
    · rw [Side.cell_written]

theorem join (op : RegionOp) (h : y.IsReading x) (h' : y'.IsReading x') :
    (join op y y').IsReading (join op x x') where
  length_eq := by
    simp only [sides, List.length_append, h.length_eq, h'.length_eq]
  sides_eq_iff := by
    simp only [sides, IsProper, ← h.sides_eq_iff, ← h'.sides_eq_iff]
    constructor
    · exact fun heq ↦ List.append_inj heq h.length_eq
    · rintro ⟨heq, heq'⟩
      rw [heq, heq']
  holds_eq := by
    rintro ⟨hx, hx'⟩ inside
    simp only [holds, h.holds_eq hx, h'.holds_eq hx']

theorem complement (h : y.IsReading x) (hx : x.isCell = false) :
    (complement y).IsReading (complement x) := by
  have hproper : (RegionTree.complement x).IsProper ↔ x.IsProper := by
    refine or_iff_left ?_
    rintro ⟨n, rfl⟩
    cases hx
  refine ⟨h.length_eq, h.sides_eq_iff.trans hproper.symm, fun hc inside ↦ ?_⟩
  simp only [holds, h.holds_eq (hproper.mp hc)]

end IsReading

end RegionTree

namespace Region

open TransportDeck.Geometry Draft

variable {ss : List (List Nat)} {new more : List Nat} {d d' : Draft} {w : Nat × Draft}
  {tree : GeometryTree} {js s : List Nat} {t : Target} {c : Bool} {r : Region} {id : Nat}
  {x : RegionTree} {ids : List Nat}

theorem Spans.isCellAt_eq (h : Spans r.nodes id x ids) : r.isCellAt id = x.isCell := by
  cases h with
  | @unit _ side o node =>
    have hnode : r.node? id = some (.unit side o) := node
    rw [isCellAt, hnode]
    rfl
  | @join _ l rt op o left right _ _ node =>
    have hnode : r.node? id = some (.branch op l (some rt) o) := node
    rw [isCellAt, hnode]
    rfl
  | @complement _ c o operand _ node =>
    have hnode : r.node? id = some (.branch .complement c none o) := node
    rw [isCellAt, hnode]
    rfl

/-! ## Runs -/

/-- An intersection of surfaces is read as the chain of its numbers. -/
theorem plainRun?_spec (h : Spans r.nodes id x ids) {fuel : Nat} {ns : List Int}
    (hrun : r.plainRun? fuel id = some ns) : ns ≠ [] ∧ ns.length = x.sides.length ∧
      (ns.map Side.surface = x.sides ↔ x.IsProper) ∧
      (x.IsProper → ∀ inside, x.holds inside = ns.all fun n ↦ inside (.surface n)) := by
  induction h generalizing fuel ns with
  | @unit id s o node =>
    have hnode : r.node? id = some (.unit s o) := node
    cases fuel with
    | zero => cases hrun
    | succ fuel =>
      rw [plainRun?, hnode] at hrun
      dsimp only at hrun
      split_ifs at hrun
      obtain rfl := Option.some.inj hrun
      refine ⟨List.cons_ne_nil _ _, rfl, ⟨fun heq ↦ ?_, ?_⟩, ?_⟩
      · have hside : [Side.surface s.signed] = [s] := heq
        exact ⟨s.signed, (List.singleton_inj.mp hside).symm⟩
      · rintro ⟨n, rfl⟩
        rw [Side.signed_surface]
        rfl
      · rintro ⟨n, rfl⟩ inside
        rw [Side.signed_surface]
        simp [RegionTree.holds]
  | @join id l rt op o left right is js node _ _ _ ihl ihr =>
    have hnode : r.node? id = some (.branch op l (some rt) o) := node
    cases fuel with
    | zero => cases hrun
    | succ fuel =>
      rw [plainRun?, hnode] at hrun
      cases op with
      | or | complement => cases hrun
      | and =>
        obtain ⟨a, ha, hrest⟩ := Option.bind_eq_some_iff.mp hrun
        obtain ⟨b, hb, hns⟩ := Option.bind_eq_some_iff.mp hrest
        obtain rfl := Option.some.inj hns
        obtain ⟨hne, hlengthl, hproperl, hholdsl⟩ := ihl ha
        obtain ⟨-, hlengthr, hproperr, hholdsr⟩ := ihr hb
        refine ⟨by simp [hne], ?_, ?_, ?_⟩
        · simp only [RegionTree.sides, List.length_append, hlengthl, hlengthr]
        · simp only [RegionTree.sides, RegionTree.IsProper, List.map_append, ← hproperl, ← hproperr]
          constructor
          · exact fun heq ↦ List.append_inj heq (by rw [List.length_map, hlengthl])
          · rintro ⟨heq, heq'⟩
            rw [heq, heq']
        · rintro ⟨hl, hr⟩ inside
          simp [RegionTree.holds, hholdsl hl, hholdsr hr, List.all_append]
  | @complement id c o operand is node _ _ =>
    have hnode : r.node? id = some (.branch .complement c none o) := node
    cases fuel with
    | zero => cases hrun
    | succ fuel =>
      rw [plainRun?, hnode] at hrun
      cases hrun

theorem plainRun?_of_isCell (h : Spans r.nodes id x ids) (hx : x.isCell = true) (fuel : Nat) :
    r.plainRun? fuel id = none := by
  cases h with
  | @unit _ side o node =>
    have hnode : r.node? id = some (.unit side o) := node
    have hside : side.isCell = true := hx
    cases fuel with
    | zero => rfl
    | succ fuel =>
      rw [plainRun?, hnode]
      exact if_pos hside
  | join | complement => cases hx

end Region

/-! ## Emission -/

/-- The tree is read as the region; the inside of a cell is nothing but its number. -/
structure GeometryTree.Describes (tree : GeometryTree) (x : RegionTree) : Prop where
  region : ∃ y, tree.region? = some y ∧ y.IsReading x
  cell : ∀ s, x = .unit s → s.isCell = true → ∃ f, tree = .leaf f ∧ f.toInt? = some s.written

namespace Region

open TransportDeck.Geometry Draft

variable {ss : List (List Nat)} {new more : List Nat} {d d' : Draft} {w : Nat × Draft}
  {tree : GeometryTree} {js s : List Nat} {t : Target} {c : Bool} {r : Region} {id : Nat}
  {x : RegionTree} {ids : List Nat}

theorem Owned.before {i : Nat} (h : Owned ss more d' i) (hspends : Spends ss new d d') :
    Owned ss (more ++ new) d i := by
  rcases h with hcovers | hge
  · exact .inl (hcovers.mono (List.subset_append_left ..))
  · exact .inr (hspends.size_le.trans hge)

theorem Owned.mono {i : Nat} (h : Owned ss new d i) (hsub : new ⊆ more) : Owned ss more d i := by
  rcases h with hcovers | hge
  · exact .inl (hcovers.mono hsub)
  · exact .inr hge

/-- A run is kept only for a region that it stands for. -/
theorem kept_spec (h : Spans r.nodes id x ids) (hspends : Spends ss new d d')
    (ht : t.IsClaimed ss new c s) (hkept : r.isKeptRun id d' t = true) :
    ∃ tree js, Written ss new d (t.origin, d') tree js ∧ tree.Describes x := by
  unfold isKeptRun at hkept
  split at hkept
  swap
  · cases hkept
  next u hentry =>
  have hrun : r.plainRun? r.size id = some u.numbers := beq_iff_eq.mp hkept
  obtain ⟨hne, hlength, hproper, hholds⟩ := plainRun?_spec h hrun
  obtain ⟨n, ns, hnumbers⟩ := List.exists_cons_of_ne_nil hne
  obtain ⟨y, hy, hysides, hyholds⟩ := RegionTree.ofNumbers?_spec n ns
  rw [← hnumbers] at hy hysides hyholds
  have hplace : d'.geometry.Holds t.place (.run u) ([] ++ [t.place]) := .run hentry
  obtain ⟨tree, js, hwritten, hregion, -⟩ :=
    Written.through hspends ht hplace List.nodup_nil (by simp) (by simp)
  refine ⟨tree, js, hwritten, ⟨y, hregion.trans hy, ?_, ?_, ?_⟩, ?_⟩
  · rw [hysides, List.length_map, hlength]
  · rw [hysides, hproper]
  · intro hx inside
    rw [hyholds, hholds hx]
  · rintro side rfl hcell
    rw [plainRun?_of_isCell h hcell] at hrun
    cases hrun

theorem side_spec (side : Side) (hspends : Spends ss new d d') {t? : Option Target}
    (ht : ∀ t ∈ t?, ∃ s, t.IsClaimed ss new side.isCell s) :
    ∃ tree js, Written ss new d (writeSide side t? d') tree js ∧ tree.Describes (.unit side) := by
  obtain ⟨e, hplaced, f, rfl, hf, hnumber⟩ := placed_writeSide side hspends.ready ht
  obtain ⟨tree, js, hwritten, hregion, hcell⟩ := hplaced.written hspends (.leaf hf) (by simp)
    (.leaf _ f) List.nodup_nil (by simp) (by simp)
  refine ⟨tree, js, hwritten, ⟨_, ?_, .unit side⟩, ?_⟩
  · rw [hregion, GeometryTree.region?, hnumber]
    rfl
  · rintro _ ⟨⟩ hside
    exact ⟨f, hcell hside, hnumber⟩

/-- A join of two trees that were written one after the other. -/
theorem join_spec {wl wr : Nat × Draft} {newl newr jsl jsr : List Nat} {treel treer : GeometryTree}
    (op : RegionOp) (hspends : Spends ss new d d') {t? : Option Target}
    (ht : ∀ t ∈ t?, ∃ s, t.IsClaimed ss new c s) (hl : Written ss newl d' wl treel jsl)
    (hr : Written ss newr wl.2 wr treer jsr) : ∃ tree js mark,
      Written ss (newr ++ (newl ++ new)) d (writeBinary op wl.1 wr.1 t? wr.2) tree js ∧
        tree.region? = (GeometryTree.binary (if op = .or then .union else .intersection) treel mark
          treer).region? := by
  have hready := hspends.ready
  have hclaimedl : new ⊆ d'.claimed := by
    rw [hspends.claimed_eq]
    exact List.subset_append_left ..
  have hclaimedr : new ⊆ wl.2.claimed := by
    rw [hl.spends.claimed_eq]
    exact List.subset_append_of_subset_right _ hclaimedl
  have hleft : newl ++ new ⊆ newr ++ (newl ++ new) := List.subset_append_right ..
  -- The operands stand apart from each other, and from the target.
  have ht' : ∀ t ∈ t?, ∃ u, t.IsClaimed ss (newr ++ (newl ++ new)) c u ∧
      ∀ i ∈ jsl ++ jsr, i ∉ u := by
    intro t hmem
    obtain ⟨u, hu⟩ := ht t hmem
    refine ⟨u, hu.mono (List.Subset.trans (List.subset_append_right ..) hleft), ?_⟩
    rw [List.forall_mem_append]
    constructor
    · exact fun i hi hiu ↦ hl.not_covers hready hclaimedl i hi (hu.covers hiu)
    · exact fun i hi hiu ↦ hr.not_covers hl.spends.ready hclaimedr i hi (hu.covers hiu)
  have hnodup : (jsl ++ jsr).Nodup :=
    List.nodup_append.mpr ⟨hl.nodup, hr.nodup, hl.disjoint hready hr⟩
  have howned : ∀ i ∈ jsl ++ jsr, Owned ss (newr ++ (newl ++ new)) d i := by
    rw [List.forall_mem_append]
    constructor
    · exact fun i hi ↦ ((hl.owned i hi).before hspends).mono hleft
    · exact fun i hi ↦ (hr.owned i hi).before (hspends.trans hl.spends)
  have hkept : wr.2.geometry.Holds wl.1 treel jsl := hl.holds.congr (hl.entry?_eq hready hr.spends)
  have hlt : ∀ i ∈ jsl ++ jsr, i < wr.2.geometry.size := by
    rw [List.forall_mem_append]
    exact ⟨hkept.lt_size, hr.holds.lt_size⟩
  have hop : (if op = .or then GeometryOp.union else .intersection).isBinary = true := by
    split_ifs <;> rfl
  obtain ⟨mark, hplaced⟩ := placed_writeBinary op wl.1 wr.1 hr.spends.ready ht'
  obtain ⟨tree, js, hwritten, hregion, -⟩ := hplaced.written
    ((hspends.trans hl.spends).trans hr.spends) (.binary hop)
    (by simp [Branch.binary, Branch.group]) (.binary hkept hr.holds hop mark) hnodup howned hlt
  exact ⟨tree, js, mark, hwritten, hregion⟩

theorem complement_spec {operand : GeometryTree} (hspends : Spends ss new d d')
    {t? : Option Target} (ht : ∀ t ∈ t?, ∃ s, t.IsClaimed ss new c s)
    (hw : Written ss more d' w operand js) : ∃ tree js mark,
      Written ss (more ++ new) d (writeComplement w.1 t? w.2) tree js ∧
        tree.region? = (GeometryTree.complement mark operand).region? := by
  have hclaimed : new ⊆ d'.claimed := by
    rw [hspends.claimed_eq]
    exact List.subset_append_left ..
  have ht' : ∀ t ∈ t?, ∃ u, t.IsClaimed ss (more ++ new) c u ∧ ∀ i ∈ js, i ∉ u := by
    intro t hmem
    obtain ⟨u, hu⟩ := ht t hmem
    refine ⟨u, hu.mono (List.subset_append_right ..), fun i hi hiu ↦ ?_⟩
    exact hw.not_covers hspends.ready hclaimed i hi (hu.covers hiu)
  obtain ⟨mark, hplaced⟩ := placed_writeComplement w.1 hw.spends.ready ht'
  obtain ⟨tree, js', hwritten, hregion, -⟩ := hplaced.written (hspends.trans hw.spends) .complement
    (by simp [Branch.complement, Branch.group]) (.complement hw.holds mark) hw.nodup
    (fun i hi ↦ (hw.owned i hi).before hspends) hw.holds.lt_size
  exact ⟨tree, js', mark, hwritten, hregion⟩

/-- Parentheses go around the operand of a complement unless it is a cell, so that its number is not
taken for the number of one. -/
theorem Written.wrapComplemented (hwritten : Written ss new d w tree js)
    (h : Spans r.nodes id x ids) (htree : tree.Describes x) : ∃ tree' js',
      Written ss new d (r.wrapComplemented id w) tree' js' ∧
        ∀ mark, ∃ y, (GeometryTree.complement mark tree').region? = some y ∧
          y.IsReading (.complement x) := by
  unfold Region.wrapComplemented
  rw [h.isCellAt_eq]
  split_ifs with hx
  · cases x with
    | join | complement => cases hx
    | unit s =>
      obtain ⟨f, rfl, hf⟩ := htree.cell s rfl hx
      refine ⟨_, js, hwritten, fun mark ↦ ⟨_, ?_, .cell hx⟩⟩
      simp only [GeometryTree.region?, GeometryTree.leaf?, hf, Option.map_some]
  · obtain ⟨y, hy, hreading⟩ := htree.region
    obtain ⟨tree', js', hwritten', hregion, hleaf⟩ := hwritten.wrapUnlessGroup
    have hnot : x.isCell = false := by simpa using hx
    refine ⟨tree', js', hwritten', fun mark ↦ ⟨.complement y, ?_, hreading.complement hnot⟩⟩
    simp only [GeometryTree.region?, hleaf, hregion, hy, Option.map_some]

/-- The node is written anew unless its target is a run that stands for it. -/
theorem kept_or {origin : Option Nat} {anew : Nat × Draft} (h : Spans r.nodes id x ids)
    (hspends : Spends ss new d d')
    (htargets : ∀ t ∈ d'.target? origin, ∃ s, t.IsClaimed ss new c s)
    (hanew : ∃ more tree js, Written ss more d anew tree js ∧ tree.Describes x) :
    ∃ more tree js, Written ss more d (((d'.target? origin).filter (r.isKeptRun id d')).elim anew
      fun t ↦ (t.origin, d')) tree js ∧ tree.Describes x := by
  cases hfilter : (d'.target? origin).filter (r.isKeptRun id d') with
  | none => exact hanew
  | some t =>
    obtain ⟨htarget, hkept⟩ := Option.filter_eq_some_iff.mp hfilter
    obtain ⟨s, hs⟩ := htargets t htarget
    exact ⟨new, kept_spec h hspends hs hkept⟩

/-- Emission writes a tree that describes what is below the node. -/
theorem Spans.emit (h : Spans r.nodes id x ids)
    (horigins : ∀ n ∈ r.nodes, ∀ o ∈ n.origin, Heads ss n.isCell o) {fuel : Nat}
    (hfuel : x.depth ≤ fuel) (hd : d.Ready ss) :
    ∃ new tree js, Written ss new d (r.emit fuel id d) tree js ∧ tree.Describes x := by
  induction h generalizing fuel d with
  | @unit id side o node =>
    have hnode : r.node? id = some (.unit side o) := node
    obtain ⟨n, rfl⟩ : ∃ n, fuel = n + 1 :=
      ⟨fuel - 1, by simp only [RegionTree.depth] at hfuel; omega⟩
    obtain ⟨new, origin, d₀, hclaim, hspends, htargets⟩ :=
      claim_spec hd (horigins _ (Array.mem_of_getElem? node))
    have hemit : r.emit (n + 1) id d = ((d₀.target? origin).filter (r.isKeptRun id d₀)).elim
        (writeSide side (d₀.target? origin) d₀) fun t ↦ (t.origin, d₀) := by
      simp only [Region.emit, hnode, hclaim]
      cases (d₀.target? origin).filter (r.isKeptRun id d₀) <;> rfl
    rw [hemit]
    exact kept_or (.unit node) hspends htargets ⟨new, side_spec side hspends htargets⟩
  | @join id l rt op o left right is js node isJoin hleft hright ihl ihr =>
    have hnode : r.node? id = some (.branch op l (some rt) o) := node
    simp only [RegionTree.depth] at hfuel
    obtain ⟨n, rfl⟩ : ∃ n, fuel = n + 1 := ⟨fuel - 1, by omega⟩
    have hfuell : left.depth ≤ n := by omega
    have hfuelr : right.depth ≤ n := by omega
    obtain ⟨new, origin, d₀, hclaim, hspends, htargets⟩ :=
      claim_spec hd (horigins _ (Array.mem_of_getElem? node))
    have hemit : r.emit (n + 1) id d = ((d₀.target? origin).filter (r.isKeptRun id d₀)).elim
        (writeBinary op (r.wrapOperand op l (r.emit n l d₀)).1
          (r.wrapOperand op rt (r.emit n rt (r.wrapOperand op l (r.emit n l d₀)).2)).1
          (d₀.target? origin)
          (r.wrapOperand op rt (r.emit n rt (r.wrapOperand op l (r.emit n l d₀)).2)).2)
        fun t ↦ (t.origin, d₀) := by
      simp only [Region.emit, hnode, hclaim]
      cases op with
      | complement => exact absurd rfl isJoin
      | and | or => cases (d₀.target? origin).filter (r.isKeptRun id d₀) <;> rfl
    rw [hemit]
    refine kept_or (.join node isJoin hleft hright) hspends htargets ?_
    obtain ⟨newl, treel₀, jsl₀, hl₀, hdl⟩ := ihl hfuell hspends.ready
    obtain ⟨treel, jsl, hl, hregionl⟩ := hl₀.wrapOperand r op l
    obtain ⟨newr, treer₀, jsr₀, hr₀, hdr⟩ := ihr hfuelr hl.spends.ready
    obtain ⟨treer, jsr, hr, hregionr⟩ := hr₀.wrapOperand r op rt
    obtain ⟨yl, hyl, hreadingl⟩ := hdl.region
    obtain ⟨yr, hyr, hreadingr⟩ := hdr.region
    obtain ⟨tree, js, mark, hwritten, hregion⟩ := join_spec op hspends htargets hl hr
    refine ⟨_, tree, js, hwritten, ⟨.join op yl yr, ?_, hreadingl.join op hreadingr⟩, ?_⟩
    · rw [hregion, GeometryTree.region?, hregionl, hyl, hregionr, hyr]
      cases op with
      | complement => exact absurd rfl isJoin
      | and | or => rfl
    · rintro s ⟨⟩
  | @complement id l o operand is node hbelow ih =>
    have hnode : r.node? id = some (.branch .complement l none o) := node
    simp only [RegionTree.depth] at hfuel
    obtain ⟨n, rfl⟩ : ∃ n, fuel = n + 1 := ⟨fuel - 1, by omega⟩
    have hfuelc : operand.depth ≤ n := by omega
    obtain ⟨new, origin, d₀, hclaim, hspends, htargets⟩ :=
      claim_spec hd (horigins _ (Array.mem_of_getElem? node))
    have hemit : r.emit (n + 1) id d = ((d₀.target? origin).filter (r.isKeptRun id d₀)).elim
        (writeComplement (r.wrapComplemented l (r.emit n l d₀)).1 (d₀.target? origin)
          (r.wrapComplemented l (r.emit n l d₀)).2) fun t ↦ (t.origin, d₀) := by
      simp only [Region.emit, hnode, hclaim]
      cases (d₀.target? origin).filter (r.isKeptRun id d₀) <;> rfl
    rw [hemit]
    refine kept_or (.complement node hbelow) hspends htargets ?_
    obtain ⟨more, tree₀, js₀, hw₀, hdescribes⟩ := ih hfuelc hspends.ready
    obtain ⟨tree₁, js₁, hw, hcomplement⟩ := hw₀.wrapComplemented hbelow hdescribes
    obtain ⟨tree, js, mark, hwritten, hregion⟩ := complement_spec hspends htargets hw
    refine ⟨_, tree, js, hwritten, ?_, ?_⟩
    · rw [hregion]
      exact hcomplement mark
    · rintro s ⟨⟩

end Region

end TransportDeck
