import TransportDeck.Proofs.Region.Sessions
import TransportDeck.Proofs.Region.Showing

/-!
# Regions that are left alone

A region that is written back as it was read changes nothing.  Every node finds the entry that it
came from, and writes into it what stands there.
-/

namespace TransportDeck

namespace Geometry

variable {g : Geometry}

/-- Right behind the sign of a complement stands no negative number. -/
def namesCell (g : Geometry) : GeometryEntry → Bool
  | .branch b =>
    b.op != .complement || match g.entry? b.left with
      | some (.leaf f) => !f.negative
      | _ => true
  | _ => true

/-- No number right behind the sign of a complement is negative: it is the number of a cell. -/
def NamesCells (g : Geometry) : Prop := g.entries.all (namesCell g) = true

instance (g : Geometry) : Decidable g.NamesCells := inferInstanceAs (Decidable (_ = true))

theorem NamesCells.negative_eq (h : g.NamesCells) {i c : Nat} {mark : Layout} {f : Field}
    (entry : g.entry? i = some (.branch (.complement mark c)))
    (leaf : g.entry? c = some (.leaf f)) : f.negative = false := by
  have hcell := Array.all_eq_true'.mp h _ (Array.mem_of_getElem? entry)
  simpa [namesCell, Branch.complement, leaf] using hcell

/-- Writing what stands in a place changes nothing. -/
theorem modify_eq_self {t : Nat} {e : GeometryEntry} {f : GeometryEntry → GeometryEntry}
    (entry : g.entry? t = some e) (hf : f e = e) : g.modify t f = g := by
  have hentries : g.entries.modify t f = g.entries := by
    refine Array.ext_getElem? fun i ↦ ?_
    rw [Array.getElem?_modify]
    split_ifs with hi
    · subst hi
      have hentry : g.entries[t]? = some e := entry
      rw [hentry, Option.map_some, hf]
    · rfl
  rw [modify, hentries]

end Geometry

namespace Region

open TransportDeck.Geometry

variable {g : Geometry} {r : Region} {tree : GeometryTree} {o i : Nat} {os claimed : List Nat}

/-! ## Entries -/

theorem setLeaf_surface {f : Field} {n : Int} (h : f.Holds n) :
    setLeaf (.surface n) (.leaf f) = .leaf f := by
  obtain ⟨⟨hkind, hapart⟩, hvalue, hnegative⟩ := h
  obtain ⟨token, value, asRead, kind, layout, signFlag, negative, neverPadded⟩ := f
  dsimp only at hkind hapart hvalue hnegative
  subst hkind hvalue hnegative
  have hsign : decide (0 ≤ n) = !decide (n < 0) := by
    rw [← decide_not, decide_eq_decide]
    exact Int.not_lt.symm
  simp [setLeaf, Field.setValue, Field.kept, Field.setNegative, Side.surface, Value.coerce,
    Value.magnitude, hapart, hsign]

theorem setLeaf_cell {f : Field} {n : Int} (h : f.Holds n) (hn : f.negative = false) :
    setLeaf (.cell n) (.leaf f) = .leaf f := by
  have hnonneg : 0 ≤ n := by
    rw [h.negative_eq] at hn
    exact Int.not_lt.mp (of_decide_eq_false hn)
  have hside : Side.cell n = { Side.surface n with isCell := true } := by
    simp [Side.cell, Side.surface, hnonneg]
  rw [hside]
  exact setLeaf_surface h

section Written

variable {t : Target} {d : Draft}

theorem modify_eq_self {e : GeometryEntry} {f : GeometryEntry → GeometryEntry} {p : Nat}
    (entry : d.geometry.entry? p = some e) (hf : f e = e) : d.modify p f = d := by
  rw [Draft.modify, Geometry.modify_eq_self entry hf]

theorem writeSide_eq_self {s : Side} {f : Field}
    (entry : d.geometry.entry? t.place = some (.leaf f)) (hf : setLeaf s (.leaf f) = .leaf f) :
    writeSide s (some t) d = (t.origin, d) := by
  have hentry : d.entryAt? (some t) = some (.leaf f) := entry
  simp only [writeSide, hentry, modify_eq_self entry hf]

theorem writeComplement_eq_self {c : Nat} {mark : Layout}
    (entry : d.geometry.entry? t.place = some (.branch (.complement mark c))) :
    writeComplement c (some t) d = (t.origin, d) := by
  have hentry : d.entryAt? (some t) = some (.branch (.complement mark c)) := entry
  have hop : (Branch.complement mark c).op = .complement := rfl
  have hself : setOperand c (.branch (.complement mark c)) = .branch (.complement mark c) := rfl
  simp only [writeComplement, hentry, if_pos hop, modify_eq_self entry hself]

theorem writeBinary_eq_self {op : GeometryOp} {l k : Nat} {mark : Layout} (hop : op.isBinary = true)
    (entry : d.geometry.entry? t.place = some (.branch (.binary op l mark k))) :
    writeBinary (if op = .union then .or else .and) l k (some t) d = (t.origin, d) := by
  have hentry : d.entryAt? (some t) = some (.branch (.binary op l mark k)) := entry
  have hbinary : (Branch.binary op l mark k).op.isBinary = true := hop
  have hself : setOperands op l k (.branch (.binary op l mark k)) =
      .branch (.binary op l mark k) := by
    simp [setOperands, Branch.binary, Branch.switchTo]
  have hwritten :
    (if (if op = .union then RegionOp.or else .and) = .or then
    GeometryOp.union else .intersection) =
      op := by
    cases op with
    | intersection | union => rfl
    | complement | group => cases hop
  simp only [writeBinary, hentry, if_pos hbinary, hwritten, modify_eq_self entry hself]

theorem wrapUnlessGroup_eq_self {w : Nat × Draft} (h : isGroup w.2.geometry w.1 = true) :
    w.2.wrapUnlessGroup w.1 = w := by
  rw [Draft.wrapUnlessGroup, if_pos h]

theorem wrapOperand_eq_self {w : Nat × Draft} {op : RegionOp}
    (h : op = .and → r.isUnionAt i = true → isGroup w.2.geometry w.1 = true) :
    r.wrapOperand op i w = w := by
  unfold wrapOperand
  split_ifs with hneeded
  · obtain ⟨hop, hunion⟩ := Bool.and_eq_true_iff.mp hneeded
    exact wrapUnlessGroup_eq_self (h (of_decide_eq_true hop) hunion)
  · rfl

theorem wrapOperand_of_binary {op : GeometryOp} {l : Nat} (hop : op.isBinary = true)
    (h : op = .intersection → r.isUnionAt i = true → isGroup g l = true) (cs : List Nat) :
    r.wrapOperand (if op = .union then .or else .and) i (l, ⟨g, cs⟩) = (l, ⟨g, cs⟩) := by
  refine wrapOperand_eq_self fun hand hunion ↦ h ?_ hunion
  cases op with
  | intersection => rfl
  | union => cases hand
  | complement | group => cases hop

theorem wrapComplemented_eq_self {c : Nat} (h : r.isCellAt i = true ∨ isGroup g c = true)
    (cs : List Nat) : r.wrapComplemented i (c, ⟨g, cs⟩) = (c, ⟨g, cs⟩) := by
  unfold wrapComplemented
  split_ifs with hcell
  · rfl
  · exact wrapUnlessGroup_eq_self (h.resolve_left hcell)

end Written

/-! ## Runs -/

theorem Spans.plainRun?_surface {n : Int} {ids : List Nat}
    (h : Spans r.nodes i (.unit (.surface n)) ids) {fuel : Nat}
    (hfuel : (RegionTree.unit (.surface n)).depth ≤ fuel) : r.plainRun? fuel i = some [n] := by
  obtain ⟨fuel, rfl⟩ : ∃ k, fuel = k + 1 :=
    ⟨fuel - 1, by simp only [RegionTree.depth] at hfuel; omega⟩
  cases h with
  | @unit _ _ o node =>
    have hnode : r.node? i = some (.unit (.surface n) o) := node
    have hcell : (Side.surface n).isCell = false := rfl
    simp only [plainRun?, hnode, hcell, Bool.false_eq_true, if_false, Side.signed_surface]

/-- A chain of numbers is the run of them. -/
theorem Spans.plainRun?_eq {x : RegionTree} {ids : List Nat} {ns : List Int}
    (h : RegionTree.ofNumbers? ns = some x) (hspans : Spans r.nodes i x ids) {fuel : Nat}
    (hfuel : x.depth ≤ fuel) : r.plainRun? fuel i = some ns := by
  cases ns with
  | nil => cases h
  | cons n ns =>
    induction ns using List.reverseRecOn generalizing x i ids fuel with
    | nil =>
      obtain rfl := Option.some.inj h
      exact hspans.plainRun?_surface hfuel
    | append_singleton ns m ih =>
      rw [RegionTree.ofNumbers?_concat] at h
      obtain ⟨y, hy, rfl⟩ := Option.map_eq_some_iff.mp h
      simp only [RegionTree.depth] at hfuel
      obtain ⟨fuel, rfl⟩ : ∃ k, fuel = k + 1 := ⟨fuel - 1, by omega⟩
      cases hspans with
      | @join _ l k _ o _ _ _ _ node _ atLeft atRight =>
        have hnode : r.node? i = some (.branch .and l (some k) o) := node
        have hl : r.plainRun? fuel l = some (n :: ns) := ih atLeft (by omega) hy
        have hr : r.plainRun? fuel k = some [m] :=
          atRight.plainRun?_surface (by simp only [RegionTree.depth]; omega)
        simp only [plainRun?, hnode, hl, hr]
        rfl

/-! ## Nodes -/

theorem claim_of_free (ho : o < g.size) (hfree : o ∉ claimed) :
    (⟨g, claimed⟩ : Draft).claim (some o) = (some o, ⟨g, o :: claimed⟩) := by
  have hlt : o < (⟨g, claimed⟩ : Draft).geometry.size := ho
  simp [Draft.claim, hlt, hfree]

theorem isKeptRun_eq_false {d : Draft} {t : Target} {e : GeometryEntry}
    (entry : d.geometry.entry? t.place = some e) (he : ∀ s, e ≠ .run s) :
    r.isKeptRun i d t = false := by
  unfold isKeptRun
  rw [entry]
  cases e with
  | run s => exact absurd rfl (he s)
  | leaf | branch => rfl

/-! ## Emission -/

/-- What is below the node claims these entries, that of the node first, and leaves the geometry as
it is. -/
def LeavesAlone (r : Region) (g : Geometry) (fuel i o : Nat) (os : List Nat) : Prop :=
  ∀ claimed : List Nat, (∀ a ∈ o :: os, a ∉ claimed) →
    r.emit fuel i ⟨g, claimed⟩ = (o, ⟨g, (o :: os).reverse ++ claimed⟩)

namespace LeavesAlone

variable {fuel j k l m c : Nat} {ls ks cs : List Nat} {mark : Layout}

theorem unit {side : Side} {f : Field} (ho : o < g.size)
    (node : r.nodes[i]? = some (.unit side (some o)))
    (entry : g.entry? (peel g g.size o) = some (.leaf f)) (hf : setLeaf side (.leaf f) = .leaf f) :
    r.LeavesAlone g (fuel + 1) i o [] := by
  intro claimed hfree
  have hnode : r.node? i = some (.unit side (some o)) := node
  have hclaim := claim_of_free ho (hfree o (List.mem_cons_self ..))
  have hkept : r.isKeptRun i ⟨g, o :: claimed⟩ ⟨o, peel g g.size o⟩ = false :=
    isKeptRun_eq_false entry (by simp)
  have hwritten : writeSide side (some ⟨o, peel g g.size o⟩) ⟨g, o :: claimed⟩ =
      (o, ⟨g, o :: claimed⟩) :=
    writeSide_eq_self entry hf
  simp only [Region.emit, hnode, RegionNode.origin, hclaim, Draft.target?, Option.map_some,
    Option.filter_some, hkept, Bool.false_eq_true, if_false, hwritten]
  rfl

theorem run {s : Shorthand} {x : RegionTree} {n : RegionNode} {ids : List Nat} (ho : o < g.size)
    (node : r.nodes[i]? = some n) (origin : n.origin = some o)
    (entry : g.entry? (peel g g.size o) = some (.run s))
    (numbers : RegionTree.ofNumbers? s.numbers = some x) (chain : Spans r.nodes i x ids)
    (nodup : ids.Nodup) : r.LeavesAlone g (fuel + 1) i o [] := by
  intro claimed hfree
  have hnode : r.node? i = some n := node
  have hclaim := claim_of_free ho (hfree o (List.mem_cons_self ..))
  have hrun : r.plainRun? r.size i = some s.numbers :=
    Spans.plainRun?_eq numbers chain (chain.depth_le_size nodup)
  have hkept : r.isKeptRun i ⟨g, o :: claimed⟩ ⟨o, peel g g.size o⟩ = true := by
    unfold isKeptRun
    rw [entry, hrun]
    exact beq_self_eq_true _
  simp only [Region.emit, hnode, origin, hclaim, Draft.target?, Option.map_some,
    Option.filter_some, hkept, if_true]
  rfl

/-- The operands claim their entries one after the other. -/
theorem binary {op : GeometryOp} (hop : op.isBinary = true) (ho : o < g.size)
    (node : r.nodes[i]? = some (.branch (if op = .union then .or else .and) j (some m) (some o)))
    (entry : g.entry? (peel g g.size o) = some (.branch (.binary op l mark k)))
    (hl : r.LeavesAlone g fuel j l ls) (hr : r.LeavesAlone g fuel m k ks)
    (hnodup : (o :: (l :: ls ++ k :: ks)).Nodup)
    (hwrapl : op = .intersection → r.isUnionAt j = true → isGroup g l = true)
    (hwrapr : op = .intersection → r.isUnionAt m = true → isGroup g k = true) :
    r.LeavesAlone g (fuel + 1) i o (l :: ls ++ k :: ks) := by
  intro claimed hfree
  rw [List.forall_mem_cons, List.forall_mem_append] at hfree
  obtain ⟨hfree, hfreel, hfreer⟩ := hfree
  obtain ⟨hnot, hrest⟩ := List.nodup_cons.mp hnodup
  rw [List.mem_append, not_or] at hnot
  have hapart := (List.nodup_append.mp hrest).2.2
  have hclaim := claim_of_free ho hfree
  have hkept : r.isKeptRun i ⟨g, o :: claimed⟩ ⟨o, peel g g.size o⟩ = false :=
    isKeptRun_eq_false entry (by simp)
  have hleft := hl (o :: claimed) fun a ha ↦
    List.not_mem_cons_of_ne_of_not_mem (ne_of_mem_of_not_mem ha hnot.1) (hfreel a ha)
  have hright := hr ((l :: ls).reverse ++ o :: claimed) fun a ha ↦ by
    rw [List.mem_append, List.mem_reverse, not_or]
    exact ⟨fun hal ↦ hapart a hal a ha rfl,
      List.not_mem_cons_of_ne_of_not_mem (ne_of_mem_of_not_mem ha hnot.2) (hfreer a ha)⟩
  have hclaimed : (k :: ks).reverse ++ ((l :: ls).reverse ++ o :: claimed) =
      (o :: (l :: ls ++ k :: ks)).reverse ++ claimed := by simp
  rw [hclaimed] at hright
  have hwritten : writeBinary (if op = .union then .or else .and) l k (some ⟨o, peel g g.size o⟩)
      ⟨g, (o :: (l :: ls ++ k :: ks)).reverse ++ claimed⟩ = (o, ⟨g, _⟩) :=
      writeBinary_eq_self hop entry
  have hwrapl := wrapOperand_of_binary hop hwrapl ((l :: ls).reverse ++ o :: claimed)
  have hwrapr := wrapOperand_of_binary hop hwrapr ((o :: (l :: ls ++ k :: ks)).reverse ++ claimed)
  have hnode : r.node? i = some (.branch (if op = .union then .or else .and) j (some m) (some o)) :=
    node
  cases op with
  | complement | group => cases hop
  | intersection | union =>
    simp only [reduceCtorEq, if_true, if_false] at hnode hwrapl hwrapr hwritten
    simp only [Region.emit, hnode, RegionNode.origin, hclaim, Draft.target?, Option.map_some,
      Option.filter_some, hkept, Bool.false_eq_true, if_false, hleft, hwrapl,
      hright, hwrapr, hwritten]

theorem complement (ho : o < g.size)
    (node : r.nodes[i]? = some (.branch .complement j none (some o)))
    (entry : g.entry? (peel g g.size o) = some (.branch (.complement mark c)))
    (hc : r.LeavesAlone g fuel j c cs) (hnot : o ∉ c :: cs)
    (hwrap : r.isCellAt j = true ∨ isGroup g c = true) :
    r.LeavesAlone g (fuel + 1) i o (c :: cs) := by
  intro claimed hfree
  rw [List.forall_mem_cons] at hfree
  have hnode : r.node? i = some (.branch .complement j none (some o)) := node
  have hclaim := claim_of_free ho hfree.1
  have hkept : r.isKeptRun i ⟨g, o :: claimed⟩ ⟨o, peel g g.size o⟩ = false :=
    isKeptRun_eq_false entry (by simp)
  have hbelow := hc (o :: claimed) fun a ha ↦
    List.not_mem_cons_of_ne_of_not_mem (ne_of_mem_of_not_mem ha hnot) (hfree.2 a ha)
  have hclaimed : (c :: cs).reverse ++ o :: claimed = (o :: c :: cs).reverse ++ claimed := by simp
  rw [hclaimed] at hbelow
  have hwrap := wrapComplemented_eq_self hwrap ((o :: c :: cs).reverse ++ claimed)
  have hwritten : writeComplement c (some ⟨o, peel g g.size o⟩)
      ⟨g, (o :: c :: cs).reverse ++ claimed⟩ = (o, ⟨g, _⟩) := writeComplement_eq_self entry
  simp only [Region.emit, hnode, RegionNode.origin, hclaim, Draft.target?, Option.map_some,
    Option.filter_some, hkept, Bool.false_eq_true, if_false, hbelow, hwrap, hwritten]

end LeavesAlone

/-- Every node claims the entry that it comes from and leaves it as it is. -/
theorem Shows.leavesAlone (h : Shows g r.nodes tree o i os) (htree : tree.IsBracketed)
    (hnames : g.NamesCells) (hlt : ∀ a ∈ o :: os, a < g.size) (hnodup : (o :: os).Nodup)
    {fuel : Nat} (hfuel : i < fuel) :
    r.LeavesAlone g fuel i o os := by
  induction h generalizing fuel with
  | @leaf f n o i entry number node =>
    obtain ⟨fuel, rfl⟩ : ∃ k, fuel = k + 1 := ⟨fuel - 1, by omega⟩
    obtain ⟨m, hm⟩ := htree
    obtain rfl : m = n := Option.some.inj (hm.toInt?_eq.symm.trans number)
    exact .unit (hlt o (List.mem_cons_self ..)) node entry (setLeaf_surface hm)
  | @run s x n o i ids entry node origin numbers chain nodup le =>
    obtain ⟨fuel, rfl⟩ : ∃ k, fuel = k + 1 := ⟨fuel - 1, by omega⟩
    exact .run (hlt o (List.mem_cons_self ..)) node origin entry numbers chain nodup
  | @binary op l k o i j m mark left right ls ks entry isBinary node ltl ltr
      atLeft atRight ihl ihr =>
    obtain ⟨fuel, rfl⟩ : ∃ k, fuel = k + 1 := ⟨fuel - 1, by omega⟩
    obtain ⟨htreel, htreer, hterms⟩ := htree
    rw [List.forall_mem_cons, List.forall_mem_append] at hlt
    obtain ⟨-, hrest⟩ := List.nodup_cons.mp hnodup
    obtain ⟨hnodupl, hnodupr, -⟩ := List.nodup_append.mp hrest
    exact .binary isBinary hlt.1 node entry (ihl htreel hlt.2.1 hnodupl (by omega))
      (ihr htreer hlt.2.2 hnodupr (by omega)) hnodup
      (fun hop ↦ atLeft.isGroup_of_isUnionAt (hterms hop).1)
      (fun hop ↦ atRight.isGroup_of_isUnionAt (hterms hop).2)
  | @cell f n c o i j mark entry inner number node lt below =>
    obtain ⟨fuel, rfl⟩ : ∃ k, fuel = k + 1 + 1 := ⟨fuel - 2, by omega⟩
    obtain ⟨⟨m, hm⟩, -⟩ := htree
    obtain rfl : m = n := Option.some.inj (hm.toInt?_eq.symm.trans number)
    rw [List.forall_mem_cons] at hlt
    have hplace : peel g g.size c = c := peel_eq_self (.leaf inner)
    have hinner : r.LeavesAlone g (fuel + 1) j c [] :=
      .unit (hlt.2 c (List.mem_cons_self ..)) below (by rw [hplace, inner])
        (setLeaf_cell hm (hnames.negative_eq entry inner))
    have hcell : r.isCellAt j = true := by
      have hnode : r.node? j = some (.unit (.cell m) (some c)) := below
      rw [isCellAt, hnode]
      rfl
    exact .complement hlt.1 node entry hinner (List.nodup_cons.mp hnodup).1 (.inl hcell)
  | @complement c o i j mark operand cs entry noLeaf node lt below ih =>
    obtain ⟨fuel, rfl⟩ : ∃ k, fuel = k + 1 := ⟨fuel - 1, by omega⟩
    obtain ⟨hoperand, henclosed⟩ := htree
    rw [List.forall_mem_cons] at hlt
    obtain ⟨hnot, hrest⟩ := List.nodup_cons.mp hnodup
    exact .complement hlt.1 node entry (ih hoperand hlt.2 hrest (by omega)) hnot
      (.inr (below.isGroup_of_isEnclosed henclosed noLeaf))
  | @group opening closing inner o i os isGroup _ ih => exact ih htree hlt hnodup hfuel

theorem sublist_flatten_heads (ss : List (List Nat)) :
    (ss.filterMap List.head?).Sublist ss.flatten := by
  induction ss with
  | nil => exact .slnil
  | cons s ss ih =>
    cases s with
    | nil => exact ih
    | cons a s => exact (ih.trans (List.sublist_append_right s ss.flatten)).cons_cons a

/-- The region of a geometry shows its tree, and every node comes from an entry of its own. -/
theorem exists_shown (hg : g.IsTree tree) (hread : ofGeometry g = .ok r) : ∃ os,
    ShownBehind g #[] r.nodes tree g.root r.root os ∧ (∀ a ∈ g.root :: os, a < g.size) ∧
      (g.root :: os).Nodup := by
  obtain ⟨s, ss, hstrands, hperm⟩ := hg.holds.strands
  have hheads : (s :: ss).filterMap List.head? = g.root :: ss.filterMap List.head? :=
    List.filterMap_cons_some hstrands.head?
  have hsub := sublist_flatten_heads (s :: ss)
  rw [hheads] at hsub
  refine ⟨_, shownBehind_of_ofGeometry hstrands hread, fun a ha ↦ ?_, ?_⟩
  · exact List.mem_range.mp (hperm.mem_iff.mp (hsub.subset ha))
  · exact (hperm.nodup_iff.mpr List.nodup_range).sublist hsub

/-- A region that is written into the geometry that it was read from leaves it as it is. -/
theorem writeInto_eq_self (hg : g.IsTree tree) (htree : tree.IsBracketed) (hnames : g.NamesCells)
    (hread : ofGeometry g = .ok r) (cell : Option Int) : (r.setCell cell).writeInto g = g := by
  obtain ⟨os, hshown, hlt, hnodup⟩ := exists_shown hg hread
  have hshows : Shows g (r.setCell cell).nodes tree g.root r.root os := hshown.shown
  have hfuel : r.root < (r.setCell cell).size := hshown.lt_size
  have hemit := hshows.leavesAlone htree hnames hlt hnodup hfuel [] (by simp)
  have hroot : (r.setCell cell).root = r.root := rfl
  rw [writeInto, hroot, hemit]
  rfl

end Region

namespace CellRecord

variable {card : Card} {c c' : CellRecord}

theorem exists_of_openRegion (hpending : c.pending = none) (hopen : c.openRegion = .ok c') :
    ∃ r, Region.ofGeometry c.geometry = .ok r ∧
      c.readRegion = .ok (r.setCell (some c.numberValue)) ∧
        c' = { c with pending := some (r.setCell (some c.numberValue)) } := by
  rw [openRegion, editRegion, region, hpending] at hopen
  cases hread : c.readRegion with
  | error e =>
    rw [hread] at hopen
    cases hopen
  | ok r =>
    rw [hread] at hopen
    obtain ⟨r, hof, rfl⟩ := exists_of_readRegion hread
    exact ⟨r, hof, rfl, (Except.ok.inj hopen).symm⟩

/-- Looking at the region of a cell changes nothing, neither while it is pending nor once it was
written. -/
theorem unchanged_of_openRegion (h : card.parse = .ok (.cell c)) (hnames : c.geometry.NamesCells)
    (hopen : c.openRegion = .ok c') :
    (c'.writtenGeometry = c.geometry ∧ ∀ t, c'.render t = c.render t) ∧
      c'.sync.2 = none ∧ c'.sync.1.geometry = c.geometry ∧
      ∀ t, c'.sync.1.render t = c.render t := by
  obtain ⟨tree, htree, hbracketed⟩ := card.exists_bracketed h
  have hpending := (Session.sound_of_parse h).1
  obtain ⟨r, hread, hreadRegion, rfl⟩ := exists_of_openRegion hpending hopen
  have hsame := Region.writeInto_eq_self htree hbracketed hnames hread (some c.numberValue)
  have hwritten : c.writtenGeometry = c.geometry := by rw [writtenGeometry, hpending]
  have hrender (t : Tolerance) :
      render t { c with pending := some (r.setCell (some c.numberValue)) } =
      c.render t := by
    simp only [render, hwritten]
    simp only [writtenGeometry, hsame]
  -- The cell with its region written into it is the one that was read.
  have hcell : ({ c with
      geometry := (r.setCell (some c.numberValue)).writeInto c.geometry
      pending := none } : CellRecord) = c := by
    rw [hsame, ← hpending]
  have hsync : sync { c with pending := some (r.setCell (some c.numberValue)) } =
      ({ c with pending := some (r.setCell (some c.numberValue)) }, none) := by
    simp only [sync, writtenGeometry, hcell, hreadRegion]
    rw [hsame]
  rw [hsync]
  exact ⟨⟨hsame, hrender⟩, rfl, rfl, hrender⟩

/-- Parentheses, a colon, the number of a cell, a run and a comment. -/
theorem unchanged_of_openRegion_of_run :
    ∃ (card : Card) (c c' : CellRecord), card.parse = .ok (.cell c) ∧ c.geometry.NamesCells ∧
      c.openRegion = .ok c' ∧ (c'.writtenGeometry = c.geometry ∧ ∀ t, c'.render t = c.render t) ∧
        c'.sync.2 = none ∧ c'.sync.1.geometry = c.geometry ∧
        ∀ t, c'.sync.1.render t = c.render t := by
  obtain ⟨c, hc, hproperties⟩ :=
    Card.exists_cell ⟨.cell, ["4 0 ( -1 :  2 ) 3 2r  #3 #(5 -6) $ outer"], "deck", 1, 0⟩
      (fun c ↦ c.geometry.NamesCells && c.openRegion.isOk) (by decide +kernel)
  obtain ⟨hnames, hok⟩ := Bool.and_eq_true_iff.mp hproperties
  have hnames := of_decide_eq_true hnames
  cases hopen : c.openRegion with
  | error e =>
    rw [hopen] at hok
    cases hok
  | ok c' => exact ⟨_, c, c', hc, hnames, hopen, unchanged_of_openRegion hc hnames hopen⟩

end CellRecord

end TransportDeck
