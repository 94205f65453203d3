import TransportDeck.Proofs.Region.Sessions
import TransportDeck.Proofs.Region.Showing

/-!
# Geometry from scratch

A region that is written on its own reads as if its nodes had no links, as long as no link names an
entry that stands already when the node is written.  The links of a region that was read from runs
do, since a run is one entry and is written as many; such a region is written over itself.  Those of
any other region that was read from a cell do not.
-/

namespace TransportDeck.Region

variable {r : Region} {x : RegionTree} {S : Side → Prop}

/-- No node comes from an entry with a number as low as one of those that stand when the node is
written. -/
def LinksAhead (r : Region) : Prop := (r.entriesBehind r.size 0 r.root).isSome = true

instance (r : Region) : Decidable r.LinksAhead := inferInstanceAs (Decidable (_ = true))

theorem IsTree.toGeometry_eq_put (h : r.IsTree x) (hahead : r.LinksAhead) :
    r.toGeometry = (put x ⟨.empty, []⟩).2.geometry.setRoot (put x ⟨.empty, []⟩).1 := by
  obtain ⟨ids, hspans, hnodup⟩ := h
  obtain ⟨k, hk⟩ := Option.isSome_iff_exists.mp hahead
  obtain ⟨hemit, -⟩ := hspans.emit_eq_put (d := ⟨.empty, []⟩) (hspans.depth_le_size hnodup) hk
  rw [toGeometry, writeInto, size, hemit]

theorem IsTree.linksAhead_of_origins (h : r.IsTree x) (horigins : ∀ n ∈ r.nodes, n.origin = none) :
    r.LinksAhead := by
  obtain ⟨ids, hspans, -⟩ := h
  exact Option.isSome_iff_exists.mpr
    (hspans.exists_entriesBehind (fun i _ n hn ↦ horigins n (Array.mem_of_getElem? hn)) ..)

theorem IsTree.origins_detached (h : r.IsTree x) : ∀ n ∈ r.detached.nodes, n.origin = none := by
  have hlinked : r.detached.Linked (fun _ _ ↦ False) x := h.linked.detached
  exact fun n hn ↦ Option.eq_none_iff_forall_not_mem.mpr (hlinked.origins n hn)

theorem made_of_region {c : CellRecord} (hpending : c.pending = none) (h : c.region = .ok r) :
    Made S r := by
  rw [CellRecord.region, hpending] at h
  obtain ⟨r₀, hread, rfl⟩ := CellRecord.exists_of_readRegion h
  exact .setCell (.read hread) _

/-- Links that are ahead of what is written make no difference to it. -/
theorem Made.toGeometry_detached (h : Made S r) (hahead : r.LinksAhead) :
    r.toGeometry = r.detached.toGeometry := by
  obtain ⟨x, hx, -⟩ := h.fills
  have hdetached := hx.detached.isTree.linksAhead_of_origins hx.isTree.origins_detached
  rw [hx.isTree.toGeometry_eq_put hahead, hx.detached.isTree.toGeometry_eq_put hdetached]

/-- A region in parentheses that is narrowed by one more side. -/
theorem toGeometry_detached_of_narrowed : ∃ (card : Card) (c : CellRecord) (r : Region),
    card.parse = .ok (.cell c) ∧ c.region = .ok r ∧ Made (fun _ ↦ True) (r.andWith (surface 5)) ∧
      (r.andWith (surface 5)).LinksAhead ∧
        (r.andWith (surface 5)).toGeometry = (r.andWith (surface 5)).detached.toGeometry := by
  obtain ⟨c, hc, hproperties⟩ := Card.exists_cell ⟨.cell, ["1 0 (-1 : 2) #3"], "deck", 1, 0⟩
    (fun c ↦ c.region.toOption.any fun r ↦ (r.andWith (surface 5)).LinksAhead) (by decide +kernel)
  obtain ⟨r, hr, hahead⟩ := Except.exists_of_any hproperties
  have hahead := of_decide_eq_true hahead
  have hmade : Made (fun _ ↦ True) (r.andWith (surface 5)) :=
    .andWith (made_of_region (Session.sound_of_parse hc).1 hr) (.ofSide trivial)
  exact ⟨_, c, r, hc, hr, hmade, hahead, hmade.toGeometry_detached hahead⟩

/-- A run is one entry and is written as many.  The last side comes from an entry with the number
that the side before it has taken by then, and is written over it. -/
theorem text_toGeometry_detached_of_run :
    ∃ (card : Card) (c : CellRecord) (r : Region) (t : Tolerance), card.parse = .ok (.cell c) ∧
      c.region = .ok r ∧ Made (fun _ ↦ True) r ∧ (r.toGeometry.render t).text = "1 1 1 6 6" ∧
        (r.detached.toGeometry.render t).text = "1 1 1 5 6" := by
  obtain ⟨c, hc, hproperties⟩ := Card.exists_cell ⟨.cell, ["1 0 1 2r 5 6"], "deck", 1, 0⟩
    (fun c ↦ c.region.toOption.any fun r ↦ (r.toGeometry.render .standard).text == "1 1 1 6 6" &&
      (r.detached.toGeometry.render .standard).text == "1 1 1 5 6") (by decide +kernel)
  obtain ⟨r, hr, htexts⟩ := Except.exists_of_any hproperties
  obtain ⟨hlinked, hdetached⟩ := Bool.and_eq_true_iff.mp htexts
  exact ⟨_, c, r, .standard, hc, hr, made_of_region (Session.sound_of_parse hc).1 hr,
    eq_of_beq hlinked, eq_of_beq hdetached⟩

/-! ## Geometries without runs -/

/-- However few of these many entries there are before, the node is written within those many. -/
def FitsWithin (r : Region) (fuel i b e : Nat) : Prop :=
  ∀ written ≤ b, ∃ k ≤ e, r.entriesBehind fuel written i = some k

namespace FitsWithin

variable {fuel i l o b b' e e' : Nat}

theorem mono (h : r.FitsWithin fuel i b e) (he : e ≤ e') : r.FitsWithin fuel i b e' := by
  intro written hwritten
  obtain ⟨k, hk, heq⟩ := h written hwritten
  exact ⟨k, hk.trans he, heq⟩

theorem not_any_lt {written : Nat} (hwritten : written ≤ b) (hb : b ≤ o) :
    ¬(some o).any (· < written) = true := by
  simpa using hwritten.trans hb

theorem unit {side : Side} (node : r.nodes[i]? = some (.unit side (some o))) (hb : b ≤ o) :
    r.FitsWithin (fuel + 1) i b (b + 1) := by
  intro written hwritten
  refine ⟨written + 1, Nat.add_le_add_right hwritten 1, ?_⟩
  rw [entriesBehind_unit node, if_neg (not_any_lt hwritten hb)]

theorem join {op : RegionOp} {k : Nat} (node : r.nodes[i]? = some (.branch op l (some k) (some o)))
    (hop : op ≠ .complement) (hb : b ≤ o) (hl : r.FitsWithin fuel l b e)
    (he : e + (op != .or && r.isUnionAt l).toNat ≤ b') (hr : r.FitsWithin fuel k b' e') :
    r.FitsWithin (fuel + 1) i b (e' + (op != .or && r.isUnionAt k).toNat + 1) := by
  intro written hwritten
  obtain ⟨kl, hkl, heql⟩ := hl written hwritten
  obtain ⟨kr, hkr, heqr⟩ := hr _ ((Nat.add_le_add_right hkl _).trans he)
  refine ⟨_, Nat.add_le_add_right (Nat.add_le_add_right hkr _) 1, ?_⟩
  rw [entriesBehind_join node hop, if_neg (not_any_lt hwritten hb), heql,
    Option.map_some, Option.bind_some, heqr]
  rfl

theorem complement (node : r.nodes[i]? = some (.branch .complement l none (some o))) (hb : b ≤ o)
    (hc : r.FitsWithin fuel l b e) :
    r.FitsWithin (fuel + 1) i b (e + (!r.isCellAt l).toNat + 1) := by
  intro written hwritten
  obtain ⟨k, hk, heq⟩ := hc written hwritten
  refine ⟨_, Nat.add_le_add_right (Nat.add_le_add_right hk _) 1, ?_⟩
  rw [entriesBehind_complement node, if_neg (not_any_lt hwritten hb), heq]
  rfl

end FitsWithin

section

variable {g : Geometry} {tree : GeometryTree} {o i c : Nat} {os : List Nat}

theorem peel_eq_self_of_bare (h : isGroup g c = false) (fuel : Nat) : peel g fuel c = c := by
  cases fuel with
  | zero => rfl
  | succ fuel =>
    unfold isGroup at h
    unfold peel
    split
    · next b entry =>
      rw [entry] at h
      exact if_neg (of_decide_eq_false h)
    · rfl

theorem entry?_peel {e : GeometryEntry} (hplace : peel g g.size o = peel g g.size c)
    (entry : g.entry? c = some e) (hbare : isGroup g c = false) :
    g.entry? (peel g g.size o) = some e := by
  rw [hplace, peel_eq_self_of_bare hbare, entry]

/-- The entries below a place stand right before it. -/
theorem eq_range'_of_concat {b n : Nat} {is : List Nat} (h : List.range' b n = is ++ [c]) :
    is = List.range' b (n - 1) ∧ 0 < n := by
  obtain ⟨k, hk, his, hc⟩ := List.range'_eq_append_iff.mp h
  rw [Nat.mul_one] at hc
  obtain ⟨-, hone⟩ := List.range'_eq_singleton_iff.mp hc.symm
  obtain rfl : k = n - 1 := by omega
  exact ⟨his, by omega⟩

/-- Parentheses are written around an operand only if it was read from some. -/
theorem Shows.toNat_needed_le (h : Shows g r.nodes tree o i os) {op : GeometryOp}
    (hop : op.isBinary = true) (hterm : op = .intersection → tree.isUnion = false) :
    ((if op = .union then RegionOp.or else .and) != .or && r.isUnionAt i).toNat ≤
      (isGroup g o).toNat := by
  refine Bool.toNat_le_toNat fun hneeded ↦ ?_
  obtain ⟨hand, hunion⟩ := Bool.and_eq_true_iff.mp hneeded
  cases op with
  | intersection => exact h.isGroup_of_isUnionAt (hterm rfl) hunion
  | union => cases hand
  | complement | group => cases hop

/-- What is written for a node takes no more room than the entries that it was read from, which
stand in a row and in the order in which they are written. -/
theorem Shows.fitsWithin (h : Shows g r.nodes tree o i os) (htree : tree.IsBracketed)
    (hruns : ∀ s, .run s ∉ g.entries) {b n : Nat} {ids : List Nat} (hholds : g.Holds c tree ids)
    (hids : List.range' b n = ids) (hplace : peel g g.size o = peel g g.size c) (hb : b ≤ o)
    {fuel : Nat} (hfuel : i < fuel) : r.FitsWithin fuel i b (b + n - (isGroup g c).toNat) := by
  induction h generalizing c b n fuel ids with
  | @leaf f m o i entry number node =>
    obtain ⟨fuel, rfl⟩ : ∃ k, fuel = k + 1 := ⟨fuel - 1, by omega⟩
    cases hholds with
    | leaf hentry =>
      obtain ⟨-, rfl⟩ := List.range'_eq_singleton_iff.mp hids
      rw [isGroup_eq_false hentry (by simp)]
      exact .unit node hb
  | @run s x m o i ids entry => exact absurd (Array.mem_of_getElem? entry) (hruns s)
  | @binary op l k o i j m mark left right ls ks entry isBinary node ltl ltr
      atLeft atRight ihl ihr =>
    obtain ⟨fuel, rfl⟩ : ∃ k, fuel = k + 1 := ⟨fuel - 1, by omega⟩
    have hfuell : j < fuel := by omega
    have hfuelr : m < fuel := by omega
    obtain ⟨htreel, htreer, hterms⟩ := htree
    have hop : (if op = .union then RegionOp.or else .and) ≠ .complement := by
      split_ifs <;> decide
    cases hholds with
    | @binary _ l' k' _ _ _ _ is js hentry _ holdsl holdsr =>
      have hbare : isGroup g c = false := isGroup_eq_false hentry (by
        rintro b ⟨⟩ rfl
        cases isBinary)
      cases (entry?_peel hplace hentry hbare).symm.trans entry
      obtain ⟨hbelow, hpos⟩ := eq_range'_of_concat hids
      obtain ⟨p, hp, rfl, rfl⟩ := List.range'_eq_append_iff.mp hbelow.symm
      have hbl : b ≤ l ∧ l < b + p := List.mem_range'_1.mp holdsl.mem
      have hbr : b + p * 1 ≤ k ∧ k < b + p * 1 + (n - 1 - p) := List.mem_range'_1.mp holdsr.mem
      have hneedl := atLeft.toNat_needed_le isBinary fun hop ↦ (hterms hop).1
      have hneedr := atRight.toNat_needed_le isBinary fun hop ↦ (hterms hop).2
      have honel := Bool.toNat_le (isGroup g l)
      have honer := Bool.toNat_le (isGroup g k)
      have hl := ihl htreel holdsl rfl rfl hbl.1 hfuell
      have hr := ihr htreer holdsr rfl rfl hbr.1 hfuelr
      refine (FitsWithin.join node hop hb hl (by omega) hr).mono ?_
      rw [hbare, Bool.toNat_false]
      omega
  | @cell f m c' o i j mark entry inner number node lt below =>
    obtain ⟨fuel, rfl⟩ : ∃ k, fuel = k + 1 + 1 := ⟨fuel - 2, by omega⟩
    cases hholds with
    | @complement _ _ _ _ is hentry holds =>
      have hbare : isGroup g c = false := isGroup_eq_false hentry (by rintro b ⟨⟩ ⟨⟩)
      cases (entry?_peel hplace hentry hbare).symm.trans entry
      obtain ⟨rfl, hpos⟩ := eq_range'_of_concat hids
      have hb' : b ≤ c' ∧ c' < b + (n - 1) := List.mem_range'_1.mp holds.mem
      have hcell : r.isCellAt j = true := by
        have hnode : r.node? j = some (.unit (.cell m) (some c')) := below
        rw [isCellAt, hnode]
        rfl
      refine (FitsWithin.complement node hb (.unit below hb'.1)).mono ?_
      rw [hcell, hbare]
      simp only [Bool.not_true, Bool.toNat_false]
      omega
  | @complement c' o i j mark operand cs entry noLeaf node lt below ih =>
    obtain ⟨fuel, rfl⟩ : ∃ k, fuel = k + 1 := ⟨fuel - 1, by omega⟩
    have hfuelc : j < fuel := by omega
    obtain ⟨hoperand, henclosed⟩ := htree
    cases hholds with
    | @complement _ _ _ _ is hentry holds =>
      have hbare : isGroup g c = false := isGroup_eq_false hentry (by rintro b ⟨⟩ ⟨⟩)
      cases (entry?_peel hplace hentry hbare).symm.trans entry
      obtain ⟨rfl, hpos⟩ := eq_range'_of_concat hids
      have hb' : b ≤ c' ∧ c' < b + (n - 1) := List.mem_range'_1.mp holds.mem
      have hgroup : isGroup g c' = true := below.isGroup_of_isEnclosed henclosed noLeaf
      have hone := Bool.toNat_le (!r.isCellAt j)
      refine (FitsWithin.complement node hb (ih hoperand holds rfl rfl hb'.1 hfuelc)).mono ?_
      rw [hgroup, hbare]
      simp only [Bool.toNat_true, Bool.toNat_false]
      omega
  | @group opening closing inner o i os isGroup _ ih =>
    cases hholds with
    | @group _ c' _ _ _ is hentry holds =>
      obtain ⟨rfl, hpos⟩ := eq_range'_of_concat hids
      obtain ⟨s, ss, hstrands, -⟩ := holds.strands
      have hplace' : peel g g.size o = peel g g.size c' :=
        hplace.trans (peel_eq_inner hstrands hentry)
      have hone := Bool.toNat_le (Region.isGroup g c)
      exact (ih htree holds rfl hplace' hb hfuel).mono (by omega)

end

/-- Unless it has runs, the geometry of a cell is read as a region whose links are ahead. -/
theorem linksAhead_of_parse {card : Card} {c : CellRecord} (h : card.parse = .ok (.cell c))
    (hruns : ∀ s, .run s ∉ c.geometry.entries) (hregion : c.region = .ok r) : r.LinksAhead := by
  obtain ⟨tree, htree, hbracketed⟩ := card.exists_bracketed h
  rw [CellRecord.region, (Session.sound_of_parse h).1] at hregion
  obtain ⟨r₀, hread, rfl⟩ := CellRecord.exists_of_readRegion hregion
  obtain ⟨s, ss, hstrands, -⟩ := htree.holds.strands
  have hshown := shownBehind_of_ofGeometry hstrands hread
  have hshows : Shows c.geometry (r₀.setCell (some c.numberValue)).nodes tree c.geometry.root
    r₀.root (ss.filterMap List.head?) := hshown.shown
  have hfits := hshows.fitsWithin hbracketed hruns htree.holds List.range_eq_range'.symm rfl
    (Nat.zero_le _) hshown.lt_size
  obtain ⟨k, -, hk⟩ := hfits 0 le_rfl
  exact Option.isSome_iff_exists.mpr ⟨k, hk⟩

end TransportDeck.Region
