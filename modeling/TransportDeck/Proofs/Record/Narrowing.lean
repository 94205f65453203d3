import TransportDeck.Proofs.Grammar.MaterialReading
import TransportDeck.Proofs.Region.ChainEnds
import TransportDeck.Proofs.Region.NarrowedTexts
import TransportDeck.Proofs.Region.Sessions

/-!
# Narrowed cells

The region of a cell is intersected with one side of a surface.  The new number is written behind
the last operand of the geometry.

* In memory the written geometry is that of the intersection, whatever stands in it
(`narrows_of_editRegion`).
* As text the cell is read as one that differs in its geometry only (`parse_narrowed`): the tokens
in front of the geometry and behind it stay as they are, and those between are a phrase again.  A
number right in front of a keyword would be one word with it, so something has to stand between the
two.
-/

namespace TransportDeck

/-! ## In front of a geometry -/

namespace CellRecord

/-- The layout that a geometry stands behind. -/
def room (c : CellRecord) : Option Layout := (c.density.getD c.material).layout

end CellRecord

namespace Production

variable {c c' : Cursor} {r : CellRecord} {t : Token} {ts us ls : List Token} {kind : ValueKind}

/-- A heading up to its geometry. -/
def front : Production CellRecord := do
  let leading ← layout
  let number ← value .int "cell number"
  refuseLike
  let material ← value .int "material number"
  let density ← density? material
  return ⟨leading, number, material, density, .empty, .empty, none⟩

theorem heading_eq_front : heading = do
    let r ← front
    return { r with geometry := ← geometry .cell } := by
  simp only [heading, front, bind_assoc, pure_bind]

/-- The tokens in front of a geometry are read alike whatever geometry stands behind them. -/
structure IsFront (r : CellRecord) (ts : List Token) : Prop where
  gives : ∀ us, (∀ u ∈ us.head?, u.isLayout = false) → Gives front (ts ++ us) r us
  exists_last : ∃ t ∈ ts.getLast?, t.isLayout = true ∨ t.kind.isNumber = true ∧
    layoutText r.room = ""

/-- A number and the layout behind it. -/
structure IsValue (kind : ValueKind) (f : Field) (ts : List Token) : Prop where
  gives : ∀ expected us, (∀ u ∈ us.head?, u.isLayout = false) →
    Gives (value kind expected) (ts ++ us) f us
  exists_cons : ∃ t vs, ts = t :: vs ∧ t.kind.isNumber = true
  exists_last : ∃ t ∈ ts.getLast?, t.isLayout = true ∨ t.kind.isNumber = true ∧
    layoutText f.layout = ""

namespace IsValue

variable {f : Field} (h : IsValue kind f ts)
include h

theorem head?_append (us : List Token) : (ts ++ us).head? = ts.head? := by
  obtain ⟨t, vs, rfl, -⟩ := h.exists_cons
  rfl

theorem isLayout_head (us : List Token) : ∀ t ∈ (ts ++ us).head?, t.isLayout = false := by
  obtain ⟨t, vs, rfl, ht⟩ := h.exists_cons
  rintro _ ⟨⟩
  exact Token.isLayout_of_isNumber ht

theorem exists_getLast? (fs : List Token) : ∃ t ∈ (fs ++ ts).getLast?, t.isLayout = true ∨
    t.kind.isNumber = true ∧ layoutText f.layout = "" := by
  obtain ⟨t, ht, hlast⟩ := h.exists_last
  exact ⟨t, by rw [List.getLast?_append, Option.mem_def.mp ht]; rfl, hlast⟩

end IsValue

theorem reads_isValue (hkind : kind ≠ .text) (expected : String) :
    Reads (value kind expected) c fun f ts ↦ IsValue kind f ts := by
  refine (Reads.value_tokens kind expected).mono ?_
  rintro _ _ ⟨t, ls, g, -, rfl, haccepts, hg, hls, rfl⟩
  have hnumber : t.kind.isNumber = true := by
    cases kind with
    | int | real => exact haccepts
    | text => exact absurd rfl hkind
  refine ⟨fun _ us hus ↦ .value_append haccepts hg hls hus, ⟨t, ls, rfl, hnumber⟩, ?_⟩
  by_cases hnil : ls = []
  · subst hnil
    exact ⟨t, rfl, .inr ⟨hnumber, rfl⟩⟩
  · have hlast := List.getLast?_eq_some_getLast hnil
    exact ⟨_, by rw [List.getLast?_cons, hlast]; rfl, .inl (hls _ (List.mem_of_getLast? hlast))⟩

theorem reads_refuseLike :
    Reads refuseLike c fun _ ts ↦ ts = [] ∧ ∀ us, us.head? = c.rest.head? →
      Gives refuseLike us () us := by
  refine .current ?_
  cases hlike : c.rest.head?.filter (·.spells "like") with
  | some t => exact .throw
  | none =>
    refine .pure ⟨rfl, fun us hus ↦ Gives.current.bind ?_⟩
    rw [hus, hlike]
    exact .pure

/-- What a density is read from. -/
theorem reads_density? (material : Field) : Reads (density? material) c fun o ts ↦
    (∀ us, (∀ u ∈ us.head?, u.isLayout = false) → Gives (density? material) (ts ++ us) o us) ∧
      (o = none ∧ ts = [] ∨ ∃ f, o = some f.asSignedFraction ∧ IsValue .real f ts) := by
  unfold density?
  split_ifs with hvoid
  · exact .pure ⟨fun us _ ↦ .pure, .inl ⟨rfl, rfl⟩⟩
  · refine (reads_isValue (by decide) _).bind fun f ts _ _ hf ↦ .pure ?_
    rw [List.append_nil]
    exact ⟨fun us hus ↦ (hf.gives _ us hus).bind .pure, .inr ⟨f, rfl, hf⟩⟩

theorem reads_front : Reads front c fun r ts ↦ IsFront r ts := by
  refine Reads.layout_tokens.bind fun leading ls c₁ _ hleading ↦ ?_
  refine (reads_isValue (by decide) _).bind fun number ns c₂ _ hnumber ↦ ?_
  refine reads_refuseLike.bind ?_
  rintro _ _ c₃ hc₃ ⟨rfl, hlike⟩
  refine (reads_isValue (by decide) _).bind fun material ms c₄ hc₄ hmaterial ↦ ?_
  refine (reads_density? material).bind fun density ds c₅ _ hdensity ↦
    .pure ⟨fun us hus ↦ ?_, ?_⟩
  · have hbehind : ∀ u ∈ (ds ++ us).head?, u.isLayout = false := by
      obtain ⟨-, rfl⟩ | ⟨f, -, hf⟩ := hdensity.2
      · exact hus
      · exact hf.isLayout_head us
    have hhead : (ms ++ (ds ++ us)).head? = c₂.rest.head? := by
      rw [hc₃, List.nil_append, hc₄, hmaterial.head?_append, hmaterial.head?_append]
    have hgives : Gives front (ls ++ (ns ++ (ms ++ (ds ++ us)))) _ us :=
      (Gives.layout_append hleading.2 (hnumber.isLayout_head _)).bind
        ((hnumber.gives _ _ (hmaterial.isLayout_head _)).bind
          ((hlike _ hhead).bind
            ((hmaterial.gives _ _ hbehind).bind ((hdensity.1 us hus).bind .pure))))
    rw [← hleading.1] at hgives
    simpa using hgives
  · obtain ⟨rfl, rfl⟩ | ⟨f, rfl, hf⟩ := hdensity.2
    · have htokens : ls ++ (ns ++ ([] ++ (ms ++ []))) = ls ++ ns ++ ms := by simp
      exact htokens ▸ hmaterial.exists_getLast? (ls ++ ns)
    · have hlayout : f.asSignedFraction.layout = f.layout := by
        rw [Field.asSignedFraction, Field.splitSign]
        split <;> rfl
      have htokens : ls ++ (ns ++ ([] ++ (ms ++ (ds ++ [])))) = ls ++ (ns ++ ms) ++ ds := by simp
      have hlast := hf.exists_getLast? (ls ++ (ns ++ ms))
      rw [← hlayout, ← htokens] at hlast
      exact hlast

end Production

/-! ## Cells with another geometry -/

namespace Production

variable {c c' : Cursor} {r head : CellRecord} {ts fs us ls ws : List Token}
  {raws : List Parameter} {z : RegionTree} {e : Option Value}

theorem Gives.yields {α : Type} {p : Production α} {a : α} (h : Gives p ts a us)
    (hc : c.rest = ts) : Yields p c fun b vs ↦ b = a ∧ vs = us := by
  obtain ⟨c', hrun, hrest, herrors⟩ := h c hc
  exact ⟨c', herrors, .inl ⟨a, hrun, rfl, hrest⟩⟩

/-- No geometry goes on with parameters. -/
theorem endsUnion_of_stops (h : Stops ws) : Building.EndsUnion ws := by
  have hkind : ∀ t ∈ ws.head?, t.kind.startsFactor = false ∧ t.kind.isShorthand = false ∧
      t.kind ≠ .colon := by
    intro t ht
    obtain ⟨kind, text, span⟩ := t
    rcases h _ ht with hword | hmark
    · change kind.isWord = true at hword
      cases kind <;> first | (cases hword; done) | exact ⟨rfl, rfl, nofun⟩
    · cases kind <;> first | (cases hmark; done) | exact ⟨rfl, rfl, nofun⟩
  exact ⟨fun t ht ↦ ⟨(hkind t ht).1, (hkind t ht).2.1⟩, fun t ht ↦ (hkind t ht).2.2⟩

theorem skips_of_stops (hls : AllLayout ls) (h : Stops ws) : Skips (ls ++ ws) ls ws :=
  ⟨rfl, hls, Seam.isLayout_of_stops h⟩

/-- What stands in front of a geometry and a phrase are a heading. -/
theorem yields_heading (hfront : IsFront r fs) (h : Phrase .union z e us) (hls : AllLayout ls)
    (hws : Stops ws) :
    Yields heading (.of (.of (fs ++ (us ++ (ls ++ ws))))) fun r' vs ↦ vs = ws ∧ ∃ g tree,
      r' = { r with geometry := g } ∧ g.IsTree tree ∧ tree.region? = some z := by
  have hhead : ∀ u ∈ (us ++ (ls ++ ws)).head?, u.isLayout = false := by
    obtain ⟨t, us, rfl, ht⟩ := h.exists_head
    rintro _ ⟨⟩
    exact TokenKind.isLayout_of_startsFactor ht
  rw [heading_eq_front]
  refine ((hfront.gives _ hhead).yields rfl).bind ?_
  rintro _ c₁ ⟨rfl, hc₁⟩
  refine (Yields.geometry h hc₁ (skips_of_stops hls hws) (endsUnion_of_stops hws)).bind ?_
  rintro g c₂ ⟨hc₂, tree, htree, hregion⟩
  exact .pure ⟨hc₂, g, tree, rfl, htree, hregion⟩

theorem depth_of_heading (hc : c.errors = []) (h : heading.run c = (.ok r, c')) :
    c'.depth = c.depth := by
  obtain ⟨_, _, -, -, -, hpasses, -⟩ := Mirrors.heading (Seam.tracks_ends hc) r c' h
  exact hpasses.depth_eq

/-- A cell with another geometry, and the same in front of it and behind it. -/
theorem parse_reheaded (hhead : heading.run (.of (.of ts)) = (.ok head, c))
    (hraws : ParameterRun c raws c') (hnil : c'.rest = []) (hkeys : (raws.map Parameter.key).Nodup)
    (hfront : IsFront r fs) (h : Phrase .union z e us) (hls : AllLayout ls)
    (halike : List.Forall₂ Token.Alike c.rest ws) :
    match (Cursor.of (.of (fs ++ (us ++ (ls ++ ws))))).parse .cell with
    | .error errors => ∃ span, errors = [.nestedTooDeep span]
    | .ok record => ∃ g tree ps, record = .cell ({ r with geometry := g }.setParameters (.of ps)) ∧
      SameParameters raws ps ∧ g.IsTree tree ∧ tree.region? = some z := by
  have hws := stops_of_alike halike (hraws.stops hnil)
  obtain ⟨d, hd, ⟨r', hrun, hrest, g, tree, rfl, htree, hregion⟩ | ⟨span, hrun⟩⟩ :=
    yields_heading hfront h hls hws
  · have hdepth : d.depth = c.depth :=
      (depth_of_heading rfl hrun).trans (depth_of_heading rfl hhead).symm
    obtain ⟨ps, d', hps, hsame, hends⟩ :=
      hraws.exists_alike (no_errors_of_heading rfl hhead) hnil hd (settles_heading _ _ _ hrun)
        hdepth (hrest ▸ halike)
    have hread : HasRead (fs ++ (us ++ (ls ++ ws))) { r with geometry := g } ps d' := ⟨d, hrun, hps⟩
    rw [hread.parse_eq hends (hsame.keys_eq ▸ hkeys)]
    exact ⟨g, tree, ps, rfl, hsame, htree, hregion⟩
  · obtain ⟨t, us, rfl, ht⟩ := h.exists_head
    have hsolid : (Cursor.of (.of (fs ++ (t :: us ++ (ls ++ ws))))).stream.onlyLayoutLeft = false :=
      TokenStream.onlyLayoutLeft_of ⟨t, by simp, TokenKind.isLayout_of_startsFactor ht⟩
    have hrecord : (record .cell).run (.of (.of (fs ++ (t :: us ++ (ls ++ ws))))) =
        (.error (.nestedTooDeep span), d) := by
      have hcell : (cell .cell).run (.of (.of (fs ++ (t :: us ++ (ls ++ ws))))) =
          (.error (.nestedTooDeep span), d) := by
        rw [cell_eq_heading]
        exact run_bind_of_error hrun
      exact run_bind_of_error hcell
    have hnone : d.errors = [] := hd
    rw [Cursor.parse, hsolid]
    simp only [hrecord, Bool.false_eq_true, if_false]
    exact ⟨span, by simp [Cursor.report, hnone]⟩

end Production

/-! ## Headings and their tokens -/

section

open Lexer Region Production

variable {c₀ c₁ : Cursor} {c c' head : CellRecord} {ts fs us ls : List Token} {tree : GeometryTree}
  {x : RegionTree} {n : Int}

namespace Geometry

variable {g : Geometry} {id : Nat} {ids : List Nat}

/-- A union is not in parentheses. -/
def isUnion (g : Geometry) : Bool :=
  match g.entry? g.root with
  | some (.branch b) => b.op == .union
  | _ => false

/-- A run of more than one number. -/
def isLongRun (g : Geometry) (id : Nat) : Bool :=
  match g.entry? id with
  | some (.run s) => decide (1 < s.numbers.length)
  | _ => false

/-- Runs of more than one number, which are spelled out for one more, stand behind layout or
parentheses. -/
def runsApart (g : Geometry) : Bool :=
  g.entries.all fun
    | .branch b => b.opLayout.text != "" || !b.right.any g.isLongRun ||
        (g.renderFrom .standard g.size b.left).text.toList.getLast? == some ')'
    | _ => true

theorem IsTree.isUnion_eq (h : g.IsTree tree) : g.isUnion = tree.isUnion := by
  have hholds := h.holds
  generalize List.range g.size = ids at hholds
  unfold isUnion
  cases hholds with
  | leaf entry | run entry | complement entry | group entry =>
    rw [entry]
    rfl
  | @binary _ _ _ op _ _ _ _ _ entry =>
    rw [entry]
    cases op <;> rfl

theorem Holds.runsApart (h : g.Holds id tree ids) (hnodup : ids.Nodup)
    (hruns : g.runsApart = true) : tree.RunsApart := by
  induction h with
  | leaf | run => trivial
  | @binary id l r op mark left right is js entry _ hl hr ihl ihr =>
    obtain ⟨hboth, -, -⟩ := List.nodup_append.mp hnodup
    obtain ⟨hleft, hright, -⟩ := List.nodup_append.mp hboth
    refine ⟨ihl hleft, ihr hright, ?_⟩
    rintro s rfl hlength
    have hlong : g.isLongRun r = true := by
      cases hr with
      | run entry =>
        rw [isLongRun, entry]
        exact decide_eq_true hlength
    have happly := Array.all_eq_true'.mp hruns _ (Array.mem_of_getElem? entry)
    simp only [Branch.binary, Option.any_some, hlong, Bool.not_true, Bool.or_false,
      hl.renderFrom_eq .standard (hl.depth_le_size hleft), Bool.or_eq_true, bne_iff_ne,
      beq_iff_eq] at happly
    exact happly
  | complement _ _ ih | group _ _ ih => exact ih (List.nodup_append.mp hnodup).1

/-- A geometry of which the region can be read describes one. -/
theorem IsTree.exists_region? (h : g.IsTree tree) {r : Region} (hr : ofGeometry g = .ok r) :
    ∃ x, tree.region? = some x := by
  obtain ⟨s, ss, hstrands, -⟩ := h.holds.strands
  obtain ⟨x, -, hx, -⟩ | ⟨-, e, he⟩ :=
    ofGeometry_spec hstrands (h.holds.depth_le_size List.nodup_range)
  · exact ⟨x, hx⟩
  · cases hr.symm.trans he

end Geometry

namespace CellRecord

/-- What stands in front of the geometry, as it was read. -/
def frontSource (c : CellRecord) : String :=
  layoutText c.leading ++ c.number.source ++ c.material.source ++ fieldSource c.density

theorem source_of_empty (h : c.parameters = .empty) :
    c.source = c.frontSource ++ c.geometry.source := by
  rw [source, h]
  exact String.append_empty

theorem region_of_not_pending (hpending : c.pending = none) :
    c.region = (ofGeometry c.geometry).map (·.setCell (some c.numberValue)) := by
  rw [region, hpending]
  rfl

/-- A region that has been edited was read. -/
theorem exists_ofGeometry {f : Region → Region} (hpending : c.pending = none)
    (hc : c.editRegion f = .ok c') : ∃ r, ofGeometry c.geometry = .ok r := by
  cases hread : ofGeometry c.geometry with
  | ok r => exact ⟨r, rfl⟩
  | error e =>
    rw [editRegion, region_of_not_pending hpending, hread] at hc
    cases hc

/-- The region of a geometry that is a tree of operators and numbers. -/
theorem exists_region (htree : c.geometry.IsTree tree) (hregion : tree.region? = some x)
    (hpending : c.pending = none) :
    ∃ r, c.region = .ok r ∧ r.sides = x.sides ∧ ∀ inside, r.holds inside = x.holds inside := by
  obtain ⟨s, ss, hstrands, -⟩ := htree.holds.strands
  obtain ⟨x', r, hx', hr, hlinked⟩ | ⟨hnone, -⟩ :=
    ofGeometry_spec hstrands (htree.holds.depth_le_size List.nodup_range)
  · obtain rfl := Option.some.inj (hregion.symm.trans hx')
    have hcell := hlinked.setCell (some c.numberValue)
    refine ⟨r.setCell (some c.numberValue), ?_, hcell.isTree.sides_eq, hcell.isTree.holds_eq⟩
    rw [region_of_not_pending hpending, hr]
    rfl
  · rw [hregion] at hnone
    cases hnone

/-- The cell differs in the geometry that is written, in which the number stands behind the end of
the chain. -/
theorem narrowed_of_editRegion (htree : c.geometry.IsTree tree) (hbracketed : tree.IsBracketed)
    (hruns : tree.RunsFollow) (hnames : c.geometry.NamesCells) (hpending : c.pending = none)
    (hc : c.editRegion (·.andWith (.surface n)) = .ok c') (t : Tolerance) :
    (∃ r, c' = { c with pending := some r }) ∧ (c'.writtenGeometry.render t).text =
      tree.asOperand.narrowText n t ++ layoutText c.geometry.trailing := by
  obtain ⟨r, hread⟩ := exists_ofGeometry hpending hc
  rw [editRegion, region_of_not_pending hpending, hread] at hc
  obtain rfl := Except.ok.inj hc
  exact ⟨⟨_, rfl⟩, text_writeInto_andWith htree hbracketed hruns hnames hread _ n t⟩

end CellRecord

/-- The tokens of a heading: what stands in front of the geometry, the phrase and the layout behind
it. -/
structure HeadingTokens (head : CellRecord) (fs us ls : List Token) (tree : GeometryTree)
    (x : RegionTree) : Prop where
  front : ∃ r, IsFront r fs ∧ head = { r with geometry := head.geometry }
  text_front : textOf fs = head.frontSource
  isTree : head.geometry.IsTree tree
  isBracketed : tree.IsBracketed
  runsFollow : tree.RunsFollow
  region : tree.region? = some x
  told : tree.Told .union x us
  layout : AllLayout ls
  trailing : layoutText head.geometry.trailing = textOf ls

/-- In front of the geometry a parenthesis may stand, if there is layout or the geometry starts with
a mark. -/
theorem HeadingTokens.opens (h : HeadingTokens head fs us ls tree x)
    (happart : layoutText head.room ≠ "" ∨
      (head.geometry.render .standard).text.toList.head?.any (fun d ↦ d == '(' || d == '#') = true)
    (ws : List Token) :
    IsOpen fs ∨ EndsOperand fs ∧ Closes (textOf (us ++ (ls ++ ws))).toList := by
  obtain ⟨r, hfront, hr⟩ := h.front
  have hroom : head.room = r.room := by rw [hr, CellRecord.room, CellRecord.room]
  obtain ⟨t, ht, hlayout | ⟨hnumber, hempty⟩⟩ := hfront.exists_last
  · exact .inl ⟨t, ht, .inl hlayout⟩
  · have hmark := happart.resolve_left (not_not_intro (hroom ▸ hempty))
    have htext : (head.geometry.render .standard).text = textOf us ++ textOf ls := by
      rw [h.isTree.render_eq, Rendered.text_append, h.told.text, Rendered.text_ofText, h.trailing]
    refine .inr ⟨⟨t, ht, TokenKind.endsOperand_of_isNumber hnumber⟩, fun d hd ↦ ?_⟩
    rw [htext] at hmark
    cases hchars : (textOf us ++ textOf ls).toList with
    | nil =>
      rw [hchars] at hmark
      cases hmark
    | cons c cs =>
      rw [hchars] at hmark
      rw [← List.append_assoc, textOf_append, String.toList_append, textOf_append, hchars] at hd
      obtain rfl : c = d := Option.some.inj hd
      simp only [List.head?_cons, Option.any_some, Bool.or_eq_true, beq_iff_eq] at hmark
      rcases hmark with rfl | rfl <;> decide

theorem exists_headingTokens (hlex : c₀.IsLexed) (h : heading.run c₀ = (.ok head, c₁))
    (hfaithful : head.geometry.Faithful) (hruns : head.geometry.runsApart = true) {r₀ : Region}
    (hr₀ : ofGeometry head.geometry = .ok r₀) :
    ∃ fs us ls tree x, c₀.rest = fs ++ (us ++ (ls ++ c₁.rest)) ∧
      HeadingTokens head fs us ls tree x := by
  obtain ⟨-, ts, hts, -, hsource⟩ := Reads.heading hlex head c₁ h
  have hparameters := parameters_of_heading h
  rw [heading_eq_front] at h
  obtain ⟨r, c, hfrontRun, h⟩ := run_bind_ok h
  obtain ⟨g, c', hgeometryRun, h⟩ := run_bind_ok h
  cases h
  obtain ⟨-, fs, hfs, hfront⟩ := reads_front hlex r c hfrontRun
  have hlexg := hlex.of_append hfs
  obtain ⟨-, gs, hgs, tree, htree, hparsed⟩ := reads_geometry .cell hlexg g _ hgeometryRun
  have hlexGs : ∀ t ∈ gs, Spells t.kind t.text :=
    fun t ht ↦ hlexg t (hgs ▸ List.mem_append_left _ ht)
  obtain ⟨x, hregion⟩ := htree.exists_region? hr₀
  obtain ⟨us, ls, rfl, hls, htrailing, htold⟩ := hparsed.exists_told hlexGs
    (htree.faithful_iff.mp hfaithful) (htree.holds.runsApart List.nodup_range hruns) hregion
  have hgsource := htree.source_eq.trans (hparsed.readAs hlexGs).2
  refine ⟨fs, us, ls, tree, x, by
    rw [hfs, hgs, List.append_assoc], ⟨r, hfront, rfl⟩, ?_, htree, hparsed.isBracketed.1,
      hparsed.runsFollow, hregion, htold, hls, ?_⟩
  · have htokens : ts = fs ++ (us ++ ls) := by
      rw [hfs, hgs, ← List.append_assoc] at hts
      exact (List.append_cancel_right hts).symm
    have htext : r.frontSource ++ g.source = textOf ts :=
      (CellRecord.source_of_empty hparameters).symm.trans hsource
    rw [hgsource, htokens, textOf_append fs, ← String.toList_inj, String.toList_append,
      String.toList_append] at htext
    exact (String.toList_inj.mp (List.append_cancel_right htext)).symm
  · rw [htrailing, layoutText_layoutOf]

end

/-! ## Narrowed cells -/

/-- A card in the block of cells is what its tokens are. -/
theorem Card.parse_of_cell {card : Card} (h : Grammar.ofCard card = .cell) : card.parse =
    match tokenize .cell card.text with
    | .ok ts => (Cursor.of (.of ts)).parse .cell
    | .error e => .error [.lexical e] := by
  have hmode : Grammar.cell.mode = .cell := rfl
  have hverbatim (errors : List SyntaxError) : canKeepVerbatim .cell card.text errors = false := rfl
  unfold Card.parse
  rw [h]
  simp only [hverbatim, Grammar.parse, hmode]
  cases tokenize .cell card.text with
  | error e => rfl
  | ok ts =>
    dsimp only
    cases (Cursor.of (.of ts)).parse .cell <;> rfl

namespace CellRecord

open Lexer Region Production

variable {card card' : Card} {c c' head r₀ : CellRecord} {ps : Parameters}
  {raws qs : List Parameter} {pending : Option Region} {c₁ c₃ : Cursor} {g : Geometry}
    {tree tree' : GeometryTree} {x z : RegionTree} {n : Int}

/-- The same cell with its region intersected with one side of a surface. -/
structure Narrows (n : Int) (c c' : CellRecord) : Prop where
  number : c'.number = c.number
  material : c'.material = c.material
  density : c'.density = c.density
  parameters : SameParameters c.parameters.params c'.parameters.params
  region : ∃ r r', c.region = .ok r ∧ c'.region = .ok r' ∧ r'.sides = r.sides ++ [.surface n] ∧
    ∀ inside, r'.holds inside = (r.holds inside && inside (.surface n))

/-- Where a number or parentheses are put in, or a run is spelled out, they stand apart from the
words around. -/
structure IsSetApart (c c' : CellRecord) : Prop where
  names_cells : c.geometry.NamesCells
  in_front : c.geometry.isUnion = true → layoutText c.room ≠ "" ∨
    (c.geometry.render .standard).text.toList.head?.any (fun d ↦ d == '(' || d == '#') = true
  runs : c.geometry.runsApart = true
  behind : c.parameters.params.isEmpty = true ∨
    (c'.writtenGeometry.render .standard).text.toList.getLast?.any Char.isDigit = false

instance (c c' : CellRecord) : Decidable (c.IsSetApart c') :=
  decidable_of_iff (c.geometry.NamesCells ∧
      (c.geometry.isUnion = true → layoutText c.room ≠ "" ∨
        (c.geometry.render .standard).text.toList.head?.any (fun d ↦ d == '(' || d == '#') = true) ∧
      c.geometry.runsApart = true ∧ (c.parameters.params.isEmpty = true ∨
        (c'.writtenGeometry.render .standard).text.toList.getLast?.any Char.isDigit = false))
    ⟨fun h ↦ ⟨h.1, h.2.1, h.2.2.1, h.2.2.2⟩, fun h ↦ ⟨h.1, h.2, h.3, h.4⟩⟩

/-! ### In memory -/

theorem region_of_ofGeometry {r : Region} (h : ofGeometry g = .ok r) :
    region { c with geometry := g, pending := none } = .ok (r.setCell (some c.numberValue)) := by
  rw [region]
  dsimp only
  rw [readRegion, h]
  rfl

/-- In the written geometry stands the intersection. -/
theorem narrows_of_editRegion (h : card.parse = .ok (.cell c))
    (hc : c.editRegion (·.andWith (.surface n)) = .ok c') :
    Narrows n c { c' with geometry := c'.writtenGeometry, pending := none } := by
  obtain ⟨hpending, tree, hsound⟩ := Session.sound_of_parse h
  obtain ⟨ss, hready, hread⟩ := hsound.exists_strands
  have hregion : c.region = (ofGeometry c.geometry).map (·.setCell (some c.numberValue)) := by
    rw [region, hpending]
    rfl
  rw [editRegion] at hc
  cases hr₀ : ofGeometry c.geometry with
  | error e =>
    rw [hregion, hr₀] at hc
    cases hc
  | ok r₀ =>
  rw [hr₀] at hregion
  rw [hregion] at hc
  obtain rfl := Except.ok.inj hc
  obtain ⟨x, hlinked, hproper⟩ := hread r₀ hr₀
  have hcell := hlinked.setCell (some c.numberValue)
  have hgrafted := hcell.graft (show RegionOp.and ≠ .complement by decide) (.ofSide (.surface n))
  obtain ⟨tree', hsound', hdescribes⟩ := hgrafted.writeInto hready
  obtain ⟨y, hy, hreading⟩ := hdescribes.region
  obtain ⟨r', hr', hr'y⟩ := hsound'.ofGeometry hy
  have hy' (cell : Option Int) : (r'.setCell cell).IsTree y := hr'y
  have hagrees := RegionTree.agrees_graft .and x (.unit (.surface n))
  have hgraftedProper : (x.graft .and (.unit (.surface n))).IsProper :=
    hproper.graft .and ⟨n, rfl⟩
  refine ⟨rfl, rfl, rfl, List.forall₂_same.mpr fun _ _ ↦
    rfl, _, _, hregion, region_of_ofGeometry hr', ?_, fun inside ↦ ?_⟩
  · rw [(hy' _).sides_eq, hreading.sides_eq_iff.mpr hgraftedProper,
      hagrees.sides_eq, hcell.isTree.sides_eq]
    rfl
  · rw [(hy' _).holds_eq, hreading.holds_eq hgraftedProper, hagrees.holds_eq, hcell.isTree.holds_eq]
    rfl

/-! ### As text -/

/-- A cell is written as the source of its front, its geometry and its parameters. -/
theorem text_of_isRead (h : head.IsRead)
    (hc' : c' = { head.setParameters ps with pending := pending }) : (Record.cell c').text =
      head.frontSource ++ (c'.writtenGeometry.render .standard).text ++
      (ps.render .standard).text := by
  subst hc'
  change (CellRecord.render .standard _).text = _
  simp only [render, setParameters, Rendered.text_append, Rendered.text_ofText, h.number.render,
    h.material.render, renderField_of_isRead h.density, frontSource]

/-- The parameters are written as their tokens. -/
theorem IsAsRead.text_parameters (h : c.IsAsRead head raws) (hraws : ParameterRun c₁ raws c₃)
    (hlex : c₁.IsLexed) (hnil : c₃.rest = []) :
    ((Parameters.of raws).render .standard).text = textOf c₁.rest := by
  obtain ⟨ts, hts, htext, -⟩ := hraws.exists_tokens hlex
  rw [hnil, List.append_nil] at hts
  rw [hts, htext, Parameters.text_render, ← h.parameters, h.map_text]

theorem rest_of_isEmpty (hempty : (Parameters.of raws).params.isEmpty = true)
    (hraws : ParameterRun c₁ raws c₃) (hnil : c₃.rest = []) : c₁.rest = [] := by
  have hlength : (Parameters.closeAll raws).length = 0 :=
    List.length_eq_zero_iff.mpr (List.isEmpty_iff.mp hempty)
  rw [Parameters.length_closeAll, List.length_eq_zero_iff] at hlength
  subst hlength
  cases hraws
  exact hnil

/-- A heading with the geometry of the intersection and the same parameters narrow the cell. -/
theorem narrows_of_agrees (hr₀ : head = { r₀ with geometry := head.geometry })
    (hpending : head.pending = none) (htree : head.geometry.IsTree tree)
    (hx : tree.region? = some x) (htree' : g.IsTree tree') (hz : tree'.region? = some z)
    (hagrees : z.Agrees (.join .and x (.unit (.surface n)))) (hsame : SameParameters raws qs) :
    Narrows n (head.setParameters (.of raws))
      ({ r₀ with geometry := g }.setParameters (.of qs)) := by
  have hpending' : r₀.pending = none := by rw [← hpending, hr₀]
  obtain ⟨r, hr, hsides, hholds⟩ :=
    exists_region (c := head.setParameters (.of raws)) htree hx hpending
  obtain ⟨r', hr', hsides', hholds'⟩ :=
    exists_region (c := { r₀ with geometry := g }.setParameters (.of qs)) htree' hz hpending'
  refine ⟨?_, ?_, ?_, hsame.closeAll, r, r', hr, hr', ?_, fun inside ↦ ?_⟩
  · exact (congrArg CellRecord.number hr₀).symm
  · exact (congrArg CellRecord.material hr₀).symm
  · exact (congrArg CellRecord.density hr₀).symm
  · rw [hsides', hagrees.sides_eq, hsides]
    rfl
  · rw [hholds', hagrees.holds_eq, hholds]
    rfl

/-- The text of the narrowed cell is read as one that narrows the cell, unless there is too much of
it. -/
theorem parse_narrowed (h : card.parse = .ok (.cell c)) (htext : (Record.cell c).text = card.text)
    (hc : c.editRegion (·.andWith (.surface n)) = .ok c') (hapart : c.IsSetApart c')
    (hn : Number.minInt ≤ n ∧ n ≤ Number.maxInt) (hcell : Grammar.ofCard card' = .cell)
    (htext' : card'.text = (Record.cell c').text) :
    match card'.parse with
    | .error errors =>
      (∃ span, errors = [.nestedTooDeep span]) ∨ errors = [.lexical (.tooManyTokens Limits.tokens)]
    | .ok record => ∃ c'', record = .cell c'' ∧ Narrows n c c'' := by
  obtain ⟨-, -, ts, htokens, hparse⟩ := Card.parse_eq_cell_iff.mp h
  have hlex := spells_of_tokensFrom htokens
  obtain ⟨head, raws, c₃, hread, hnil, hkeys, rfl, hasRead⟩ := exists_isAsRead htokens hparse htext
  obtain ⟨-, -, -, hheadRead, -⟩ := hread.exists_tokens hlex
  obtain ⟨c₁, hhead, hraws⟩ := hread.exists_place
  have hlex₀ : (Cursor.of (.of ts)).IsLexed := hlex
  obtain ⟨r, hr⟩ := exists_ofGeometry (c := head.setParameters (.of raws)) hheadRead.not_pending hc
  obtain ⟨fs, us, ls, tree, x, hts, hheading⟩ :=
    exists_headingTokens hlex₀ hhead hasRead.geometry hapart.runs hr
  obtain rfl : ts = fs ++ (us ++ (ls ++ c₁.rest)) := hts
  obtain ⟨r₀, hfront, hr₀⟩ := hheading.front
  have htree : (head.setParameters (.of raws)).geometry.IsTree tree := hheading.isTree
  have htrailing : layoutText (head.setParameters (.of raws)).geometry.trailing = textOf ls :=
    hheading.trailing
  obtain ⟨⟨r, hc'⟩, hgeometry⟩ :=
    narrowed_of_editRegion htree hheading.isBracketed hheading.runsFollow hapart.names_cells
      hheadRead.not_pending hc .standard
  rw [htrailing] at hgeometry
  have hroom : (head.setParameters (.of raws)).room = r₀.room := by
    rw [hr₀]
    rfl
  obtain ⟨hcuts, hshort, -⟩ := tokenize_eq_ok_iff.mp htokens
  obtain ⟨us', vs', z, e, hcuts', halike, hphrase, hz, hshort'⟩ :=
    cutsPhrase_narrowText hheading.told hheading.layout hcuts hlex hshort hn
      (fun hunion ↦ hheading.opens (hapart.in_front (htree.isUnion_eq.trans hunion)) c₁.rest)
      (hapart.behind.imp (rest_of_isEmpty · hraws hnil) fun hdigit d hd ↦ by
        rwa [hgeometry, Option.mem_def.mp hd] at hdigit)
  obtain ⟨ls', ws', rfl, hls, hws⟩ := exists_of_alike_append halike
  have hsource :
    card'.text = textOf fs ++ (tree.asOperand.narrowText n .standard ++
      textOf (ls ++ c₁.rest)) := by
    have hlex₁ : c₁.IsLexed := fun t ht ↦ hlex t (by simp [ht])
    rw [htext', text_of_isRead hheadRead hc', hgeometry, hasRead.text_parameters hraws hlex₁ hnil,
      hheading.text_front]
    simp [String.append_assoc]
  rw [← String.toList_append, ← String.toList_append, ← hsource] at hcuts'
  have hreheaded :=
    parse_reheaded hhead hraws hnil hkeys hfront hphrase
      (allLayout_of_alike hls hheading.layout) hws
  rw [Card.parse_of_cell hcell, tokenize_of_cuts hcuts' hshort']
  split_ifs
  swap
  · exact .inr rfl
  dsimp only
  generalize (Cursor.of (.of (fs ++ (us' ++ (ls' ++ ws'))))).parse .cell = outcome at hreheaded ⊢
  cases outcome with
  | error errors => exact .inl hreheaded
  | ok record =>
    obtain ⟨g, tree', qs, rfl, hsame, htree', hregion⟩ := hreheaded
    have hnarrows :=
      narrows_of_agrees hr₀ hheadRead.not_pending hheading.isTree
        hheading.region htree' hregion hz hsame
    exact ⟨_, rfl, hnarrows⟩

/-- A cell whose region is intersected with one side of a surface is the same otherwise, and in its
geometry stands the intersection.  If the cell is written as it was read and nothing runs into what
is put in, its text is read as such a cell. -/
theorem narrows_of_andWith (h : card.parse = .ok (.cell c))
    (hc : c.editRegion (·.andWith (.surface n)) = .ok c') :
    Narrows n c { c' with geometry := c'.writtenGeometry, pending := none } ∧
      ((Record.cell c).text = card.text → c.IsSetApart c' → Number.minInt ≤ n ∧ n ≤ Number.maxInt →
        ∀ card' : Card, Grammar.ofCard card' = .cell → card'.text = (Record.cell c').text →
          match card'.parse with
          | .error errors =>
            (∃ span, errors = [.nestedTooDeep span]) ∨ errors =
              [.lexical (.tooManyTokens Limits.tokens)]
          | .ok record => ∃ c'', record = .cell c'' ∧ Narrows n c c'') :=
  ⟨narrows_of_editRegion h hc, fun htext hapart hn _ hcell htext' ↦
    parse_narrowed h htext hc hapart hn hcell htext'⟩

/-- Behind a union in parentheses a run is spelled out for one more number. -/
theorem narrows_of_run :
    ∃ (card card' : Card)
      (c c' c'' : CellRecord), card.parse = .ok (.cell c) ∧ c.editRegion (·.andWith (.surface 5)) =
      .ok c' ∧ (Record.cell c).text = card.text ∧ c.IsSetApart c' ∧ card'.text =
      (Record.cell c').text ∧ card'.parse = .ok (.cell c'') ∧
        Narrows 5 c { c' with geometry := c'.writtenGeometry, pending := none } ∧
        Narrows 5 c c'' := by
  let card : Card := ⟨.cell, ["1 0 (-1 1r : 2) 3 2r imp:n=1"], "deck", 1, 0⟩
  let card' : Card := ⟨.cell, ["1 0 (-1 1r : 2) 3 3 3 5 imp:n=1"], "deck", 1, 0⟩
  obtain ⟨c, hc, hproperties⟩ := Card.exists_cell card
    (fun c ↦ (Record.cell c).text == card.text &&
    (c.editRegion (·.andWith (.surface 5))).toOption.any fun c' ↦
      decide (c.IsSetApart c') && card'.text == (Record.cell c').text)
    (by decide +kernel)
  rw [Bool.and_eq_true, beq_iff_eq] at hproperties
  obtain ⟨htext, hany⟩ := hproperties
  obtain ⟨c', hc', hapart⟩ := Except.exists_of_any hany
  rw [Bool.and_eq_true, decide_eq_true_eq, beq_iff_eq] at hapart
  obtain ⟨hapart, htext'⟩ := hapart
  have hcell : Grammar.ofCard card' = .cell := by decide +kernel
  have hok : card'.parse.isOk = true := by decide +kernel
  have hrange : Number.minInt ≤ 5 ∧ 5 ≤ Number.maxInt := by decide
  obtain ⟨hwritten, hread⟩ := narrows_of_andWith hc hc'
  have hread := hread htext hapart hrange card' hcell htext'
  cases hparse : card'.parse with
  | error errors =>
    rw [hparse] at hok
    cases hok
  | ok record =>
    rw [hparse] at hread
    obtain ⟨c'', rfl, hnarrows⟩ := hread
    exact ⟨card, card', c, c', c'', hc, hc', htext, hapart, htext', hparse, hwritten, hnarrows⟩

/-- A keyword right behind a parenthesis is a word with the number that is put between the two. -/
theorem not_narrowed : ∃ (card card' : Card) (c c' : CellRecord) (errors : List SyntaxError),
    card.parse = .ok (.cell c) ∧ c.editRegion (·.andWith (.surface 5)) = .ok c' ∧
      card'.lines = [(Record.cell c').text] ∧ card'.block = .cell ∧
      card'.parse = .error errors := by
  let card : Card := ⟨.cell, ["1 0 (-1)imp:n=1"], "deck", 1, 0⟩
  let card' : Card := ⟨.cell, ["1 0 (-1) 5imp:n=1"], "deck", 1, 0⟩
  obtain ⟨c, hc, hproperties⟩ := Card.exists_cell card
    (fun c ↦ (c.editRegion (·.andWith (.surface 5))).toOption.any fun c' ↦
      (Record.cell c').text == card'.text)
    (by decide +kernel)
  obtain ⟨c', hc', hequal⟩ := Except.exists_of_any hproperties
  have htext : (Record.cell c').text = "1 0 (-1) 5imp:n=1" := eq_of_beq hequal
  have hrejected : card'.parse.toOption.isNone = true := by decide +kernel
  obtain ⟨errors, herrors⟩ := Except.toOption_eq_none.mp (Option.isNone_iff_eq_none.mp hrejected)
  exact ⟨card, card', c, c', errors, hc, hc', by rw [htext], rfl, herrors⟩

end CellRecord

end TransportDeck
