import TransportDeck.Grammar.Records
import TransportDeck.Proofs.Grammar.Parsing
import TransportDeck.Proofs.Region.Printing
import TransportDeck.Proofs.Region.RoundTrip
import TransportDeck.Proofs.Token.Lexemes

/-!
# Regions read back from their text

The text of a region that is written from scratch is a phrase of the grammar of geometries.  A cell
with this text has a region with the same sides and the same meaning, unless the text is too long or
too deeply nested to be read.
-/

namespace TransportDeck

namespace RegionTree

/-- The numbers of the sides are integers of 64 bits. -/
def InRange (x : RegionTree) : Prop := ∀ s ∈ x.sides, s.divider.natAbs ≤ Number.maxInt

/-- The level of the phrase that the region is written as. -/
def level : RegionTree → PhraseLevel
  | join .or _ _ => .union
  | join _ _ _ => .intersection
  | _ => .factor

/-! ## Characters -/

/-- The text starts with a character that is no blank. -/
def IsSolid (text : String) : Prop := ∃ c cs, text.toList = c :: cs ∧ Text.isAsciiBlank c = false

/-- What starts with something solid does so whatever follows. -/
theorem IsSolid.append {text : String} (h : IsSolid text) (text' : String) :
    IsSolid (text ++ text') := by
  obtain ⟨c, cs, heq, hc⟩ := h
  exact ⟨c, cs ++ text'.toList, by rw [String.toList_append, heq, List.cons_append], hc⟩

theorem IsSolid.startsSolid {text : String} (h : IsSolid text) (rest : List Char) :
    Lexer.StartsSolid (text.toList ++ rest) := by
  obtain ⟨c, cs, heq, hc⟩ := h
  rw [heq]
  rintro _ ⟨⟩
  exact hc

/-- An integer starts with a digit or its sign. -/
theorem isSolid_toString (n : Int) : IsSolid (toString n) := by
  have hinteger := Lexer.isInteger_toString n
  obtain ⟨c, cs, heq⟩ := List.exists_cons_of_ne_nil hinteger.ne_nil
  exact ⟨c, cs, heq, Lexer.eq_false_of_integerStarts (hinteger.head_mem heq) _ (by decide)⟩

/-- Parentheses are solid. -/
theorem isSolid_enclose {text : String} (h : IsSolid text) (needed : Bool) :
    IsSolid (enclose needed text) := by
  have hopen : IsSolid "(" := ⟨'(', [], rfl, rfl⟩
  cases needed with
  | true => exact (hopen.append text).append ")"
  | false => exact h

/-- A written region starts with something solid. -/
theorem isSolid_written (x : RegionTree) : IsSolid x.written := by
  have hmark : IsSolid "#" := ⟨'#', [], rfl, rfl⟩
  induction x with
  | unit s => exact isSolid_toString _
  | join op l r ihl _ =>
    unfold written
    split_ifs
    · exact (ihl.append _).append _
    · exact ((isSolid_enclose ihl _).append _).append _
  | complement t => exact hmark.append _

/-! ## Phrases -/

/-- The tokens are a phrase of the region, up to the way in which operators associate. -/
def Spells (x : RegionTree) (level : PhraseLevel) (ts : List Token) : Prop :=
  ∃ z e, z.Agrees x ∧ Phrase level z e ts

open Lexer (LexesAs EndsNumber)

variable {x : RegionTree} {rest : List Char}

/-- A region is spelled as a union at least. -/
theorem Spells.widen {ts : List Token} (h : x.Spells x.level ts) : x.Spells .union ts := by
  obtain ⟨z, e, hz, hphrase⟩ := h
  refine ⟨z, e, hz, ?_⟩
  cases x with
  | unit | complement => exact .ofIntersection (.ofFactor hphrase)
  | join op =>
    cases op with
    | or => exact hphrase
    | and | complement => exact .ofIntersection hphrase

/-- A region that is no union is spelled as an intersection at least. -/
theorem Spells.chain {ts : List Token} (hx : x.isUnion = false) (h : x.Spells x.level ts) :
    x.Spells .intersection ts := by
  obtain ⟨z, e, hz, hphrase⟩ := h
  refine ⟨z, e, hz, ?_⟩
  cases x with
  | unit | complement => exact .ofFactor hphrase
  | join op =>
    cases op with
    | or => cases hx
    | and | complement => exact hphrase

theorem allLayout_nil : AllLayout [] := by simp [AllLayout]

/-- A text in parentheses is a group. -/
theorem lexes_group {text : String}
    (h : ∀ rest, EndsNumber rest → LexesAs text.toList (x.Spells .union) rest) :
    LexesAs ("(" ++ text ++ ")").toList (x.Spells .group) rest := by
  rw [String.toList_append, String.toList_append]
  have hinner := (h (')' :: rest) (by rintro _ ⟨⟩; exact .inr (.inl rfl))).append
    (LexesAs.mark (.inr (.inl rfl)) rfl rest) (S := fun ts ↦ ∃ us t, ts = us ++ [t] ∧
      x.Spells .union us ∧ t.kind = .rightParen) ?_
  · rw [List.append_assoc]
    refine (LexesAs.mark (.inl rfl) rfl _).append hinner ?_
    rintro _ _ ⟨m, rfl, hm⟩ ⟨us, m', rfl, ⟨z, e, hz, hphrase⟩, hm'⟩
    exact ⟨z, e, hz, .group hm allLayout_nil hphrase allLayout_nil hm'⟩
  · rintro us _ hus ⟨t, rfl, ht⟩
    exact ⟨us, t, rfl, hus, ht⟩

/-- Wherever no number goes on behind it, the text is lexed as a phrase of the region. -/
def IsSpelled (x : RegionTree) : Prop :=
  ∀ rest, EndsNumber rest → LexesAs x.written.toList (x.Spells x.level) rest

/-- An operand of an intersection is a chain, if need be in parentheses. -/
theorem lexes_operand (h : x.IsSpelled)
    (hrest : EndsNumber rest) :
    LexesAs (enclose x.isUnion x.written).toList (x.Spells .intersection) rest := by
  unfold enclose
  cases hx : x.isUnion with
  | true =>
    refine (lexes_group fun rest hrest ↦ (h rest hrest).mono fun ts hts ↦ hts.widen).mono ?_
    rintro ts ⟨z, e, hz, hphrase⟩
    exact ⟨z, e, hz, .ofFactor (.ofGroup hphrase)⟩
  | false => exact (h rest hrest).mono fun ts hts ↦ hts.chain hx

/-- A surface is spelled by its number. -/
theorem isSpelled_surface {n : Int} (hn : n.natAbs ≤ Number.maxInt) :
    (unit (.surface n)).IsSpelled := by
  intro rest hrest
  have hrange : Number.minInt ≤ n ∧ n ≤ Number.maxInt := by
    simp only [Number.minInt, Number.maxInt] at hn ⊢
    omega
  rw [written, Side.written_surface]
  refine (LexesAs.integer hrange hrest).mono ?_
  rintro _ ⟨t, rfl, hkind, htext⟩
  exact ⟨_, _, .refl _, .surface hkind (by rw [htext, Number.readInt?_toString hrange])⟩

/-- The outside of a cell is spelled by its mark and its number. -/
theorem isSpelled_outsideCell {n : Int} (hn : n.natAbs ≤ Number.maxInt) :
    (complement (unit (.cell n))).IsSpelled := by
  intro rest hrest
  have hrange : Number.minInt ≤ (Side.cell n).written ∧ (Side.cell n).written ≤ Number.maxInt := by
    have hwritten : (Side.cell n).written = n.natAbs := by simp [Side.cell, Side.written]
    rw [hwritten]
    simp only [Number.minInt, Number.maxInt] at hn ⊢
    omega
  have htext : (complement (unit (.cell n))).written = "#" ++ toString (Side.cell n).written := rfl
  rw [htext, String.toList_append]
  refine (LexesAs.complement _).append (LexesAs.integer hrange hrest) ?_
  rintro _ _ ⟨m, rfl, hm⟩ ⟨t, rfl, hkind, htext⟩
  have hphrase := Phrase.cell hm allLayout_nil hkind (n := (Side.cell n).written)
    (by rw [htext, Number.readInt?_toString hrange])
  rw [Side.cell_written] at hphrase
  exact ⟨_, _, .refl _, hphrase⟩

/-- A union is spelled by its operands with a colon between them. -/
theorem IsSpelled.union {y : RegionTree} (hx : x.IsSpelled) (hy : y.IsSpelled) :
    (join .or x y).IsSpelled := by
  intro rest hrest
  have htext : (join .or x y).written = x.written ++ (":" ++ y.written) := by
    rw [written, if_pos rfl, String.append_assoc]
  have hright := (LexesAs.mark (.inr (.inr rfl)) rfl _).append (hy rest hrest)
    (S := fun ts ↦ ∃ t us, ts = t :: us ∧ t.kind = .colon ∧ y.Spells .union us) (by
      rintro _ us ⟨t, rfl, ht⟩ hus
      exact ⟨t, us, rfl, ht, hus.widen⟩)
  rw [htext, String.toList_append, String.toList_append]
  refine (hx _ ?_).append hright ?_
  · rintro _ ⟨⟩
    exact .inr (.inr rfl)
  · rintro ts _ hts ⟨t, us, rfl, ht, y', e', hy', hphrase⟩
    obtain ⟨x', e, hx', hphrasel⟩ := hts.widen
    obtain ⟨z, hz, hunion⟩ := hphrasel.unite allLayout_nil ht allLayout_nil hphrase
    exact ⟨z, e', hz.trans (hx'.join .or hy'), hunion⟩

/-- An intersection is spelled by its operands with a blank between them. -/
theorem IsSpelled.intersection {op : RegionOp} {y : RegionTree} (hop : op ≠ .or) (hx : x.IsSpelled)
    (hy : y.IsSpelled) {rest : List Char} (hrest : EndsNumber rest) :
    LexesAs (join op x y).written.toList ((join op x y).Spells .intersection) rest := by
  have htext : (join op x y).written =
      enclose x.isUnion x.written ++ (" " ++ enclose y.isUnion y.written) := by
    rw [written, if_neg hop, String.append_assoc]
  have hsolid := (isSolid_enclose (isSolid_written y) y.isUnion).startsSolid rest
  have hright := (LexesAs.space hsolid).append (lexes_operand hy hrest)
    (S := fun ts ↦ ∃ t us, ts = [t] ++ us ∧ t.kind = .space ∧ y.Spells .intersection us) (by
      rintro _ us ⟨t, rfl, ht⟩ hus
      exact ⟨t, us, rfl, ht, hus⟩)
  rw [htext, String.toList_append, String.toList_append]
  refine (lexes_operand hx ?_).append hright ?_
  · rintro _ ⟨⟩
    exact .inl rfl
  · rintro ts _ ⟨x', e, hx', hphrasel⟩ ⟨t, us, rfl, ht, y', e', hy', hphrase⟩
    have hlayout : AllLayout [t] := by
      rintro _ (_ | ⟨_, ⟨⟩⟩)
      rw [Token.isLayout, ht]
      rfl
    obtain ⟨z, hz, hchain⟩ := hphrasel.intersect hlayout hphrase
    -- Whatever the operator is, it is no union.
    have hand : (join .and x y).Agrees (join op x y) :=
      ⟨rfl, fun inside ↦ by simp only [holds, if_neg hop]; rfl⟩
    exact ⟨z, e', (hz.trans (hx'.join .and hy')).trans hand, hchain⟩

/-- The complement of a region other than a cell is spelled by its mark and the group behind it. -/
theorem IsSpelled.complement (h : x.IsSpelled) (hx : x.isCell = false) :
    (RegionTree.complement x).IsSpelled := by
  intro rest _
  have htext : (RegionTree.complement x).written = "#" ++ ("(" ++ x.written ++ ")") := by
    rw [written, hx]
    rfl
  rw [htext, String.toList_append]
  refine (LexesAs.complement _).append
    (lexes_group fun rest hrest ↦ (h rest hrest).mono fun ts hts ↦ hts.widen) ?_
  rintro _ us ⟨m, rfl, hm⟩ ⟨z, e, hz, hphrase⟩
  exact ⟨_, e, hz.complement, .complement hm allLayout_nil hphrase⟩

/-- A region is written as a phrase of its level. -/
theorem isSpelled (hproper : x.IsProper) (hrange : x.InRange) : x.IsSpelled := by
  induction x with
  | unit s =>
    obtain ⟨n, rfl⟩ := hproper
    have hn := hrange _ (List.mem_singleton_self _)
    exact isSpelled_surface (by simpa [Side.surface] using hn)
  | join op l r ihl ihr =>
    obtain ⟨hrl, hrr⟩ := List.forall_mem_append.mp hrange
    have hl := ihl hproper.1 hrl
    have hr := ihr hproper.2 hrr
    cases op with
    | or => exact hl.union hr
    | and | complement => exact fun _ ↦ hl.intersection (by decide) hr
  | complement t ih =>
    rcases hproper with hproper | ⟨n, rfl⟩
    · refine (ih hproper hrange).complement ?_
      cases t with
      | unit s =>
        obtain ⟨n, rfl⟩ := hproper
        rfl
      | join | complement => rfl
    · have hn := hrange _ (List.mem_singleton_self _)
      exact isSpelled_outsideCell (by simpa [Side.cell] using hn)

end RegionTree

/-! ## Cells -/

namespace Production

variable {c : Cursor} {t : Token} {ls us vs : List Token} {n : Int}

/-- A number is read as the value that it spells. -/
theorem Yields.value {expected : String} (hc : c.rest = t :: vs) (hkind : t.kind.isNumber = true)
    (hvalue : Number.readInt? t.text = some n) (hvs : Skips vs ls us) :
    Yields (value .int expected) c fun f ws ↦ ws = us ∧ f.toInt? = some n := by
  refine .current ?_
  have hfilter : c.rest.head?.filter (accepts .int) = some t := by
    rw [hc, List.head?_cons, Option.filter_some]
    exact if_pos hkind
  have hparse : Field.parse? t.text .int none = some
      ⟨some t.text, some (.int n), some (.int n), .int, none, ⟨false, false⟩, false, false⟩ := by
    simp [Field.parse?, Field.readValue?, hvalue]
  rw [hfilter]
  dsimp only
  rw [hparse]
  refine (Yields.advance hc).bind ?_
  rintro - c' rfl
  exact (Yields.layout hvs).bind fun l c'' hc'' ↦ .pure ⟨hc'', rfl⟩

/-- The tokens of a geometry are read, with the layout behind them. -/
theorem Yields.geometry {z : RegionTree} {e : Option Value} {ts : List Token}
    (h : Phrase .union z e ts)
    (hc : c.rest = ts ++ vs) (hvs : Skips vs ls us) (hends : Building.EndsUnion us) :
    Yields (geometry .cell) c fun g ws ↦ ws = us ∧ ∃ tree, g.IsTree tree ∧
      tree.region? = some z := by
  unfold Production.geometry
  rw [if_neg (by decide)]
  refine .get ?_
  have hgr : Grammar.cell.allows .shorthands = true := rfl
  have hunion := Building.parses_of_phrase hgr h (Limits.parseDepth - c.depth) .empty c vs ls us
    (fun o g ws ↦ ws = us ∧ o.Shows .empty g z e) hc hvs hends.endsChain
    fun o g c' hc' ho ↦ .stop_union (by rwa [hc']) ⟨hc', ho⟩
  refine Yields.bind hunion ?_
  rintro ⟨root, g⟩ c' ⟨hc', tree, hgrows, htree, -⟩
  have hempty : Geometry.empty.size = 0 := rfl
  have hholds := hgrows.holds
  rw [hempty, Nat.sub_zero, ← List.range_eq_range'] at hholds
  exact .pure ⟨hc', tree, ⟨hholds.congr fun _ _ ↦ rfl⟩, htree⟩

theorem skips_nil : Skips [] [] [] := ⟨rfl, by simp, by simp⟩

theorem endsUnion_nil : Building.EndsUnion [] := ⟨by rintro _ ⟨⟩, by rintro _ ⟨⟩⟩

/-- Where nothing is left there are no parameters. -/
theorem Yields.parameters (h : c.rest = []) :
    Yields (parameters .cell) c fun ps us ↦ us = [] ∧ ps = .empty := by
  unfold Production.parameters
  rw [if_pos (by decide)]
  refine Loops.yields (.stop ?_)
  have hnone : c.stream.current? = none := by
    rw [c.current?_eq_head?, h]
    rfl
  have hstarts : Yields (startsParameter .cell) c fun b us ↦ b = false ∧ us = [] := by
    refine .get (.pure ⟨?_, h⟩)
    rw [parameterAhead, hnone]
  refine hstarts.bind ?_
  rintro _ c' ⟨rfl, hc'⟩
  exact .pure ⟨rfl, hc', rfl⟩

/-- The number of a cell, void, and a geometry. -/
theorem Yields.cell {t t' sp sp' : Token} {ts : List Token} {z : RegionTree}
    {e : Option Value}
    (hc : c.rest = t :: sp :: t' :: sp' :: ts) (hkind : t.kind.isNumber = true)
    (hnumber : Number.readInt? t.text = some n) (hsp : sp.kind = .space)
    (hkind' : t'.kind.isNumber = true) (hvoid : t'.text = "0") (hsp' : sp'.kind = .space)
    (h : Phrase .union z e ts) : Yields (cell .cell) c fun r us ↦ us = [] ∧ r.parameters = .empty ∧
      ∃ tree, r.geometry.IsTree tree ∧ tree.region? = some z := by
  have hspace {sp : Token} {us : List Token} (hsp : sp.kind = .space)
      (hus : ∀ t ∈ us.head?, t.isLayout = false) : Skips (sp :: us) [sp] us := by
    refine ⟨rfl, ?_, hus⟩
    rintro _ (_ | ⟨_, ⟨⟩⟩)
    rw [Token.isLayout, hsp]
    rfl
  have hzero : Number.readInt? t'.text = some 0 := by
    have hrange : Number.minInt ≤ 0 ∧ 0 ≤ Number.maxInt := by decide
    rw [hvoid]
    exact Number.readInt?_toString hrange
  have hstart : Skips c.rest [] (t :: sp :: t' :: sp' :: ts) := by
    refine ⟨hc, by simp, ?_⟩
    rintro _ ⟨⟩
    exact Token.isLayout_of_isNumber hkind
  have hgeometry := Building.skips_of_phrase h RegionTree.allLayout_nil []
  rw [List.append_nil] at hgeometry
  refine (Yields.layout hstart).bind ?_
  rintro leading c₁ hc₁
  refine (Yields.value hc₁ hkind hnumber (hspace hsp ?_)).bind ?_
  · rintro _ ⟨⟩
    exact Token.isLayout_of_isNumber hkind'
  rintro number c₂ ⟨hc₂, -⟩
  have hlike : Yields refuseLike c₂ fun _ us ↦ us = t' :: sp' :: ts := by
    refine .current ?_
    have hspells : t'.spells "like" = false := by
      rw [Token.spells, hvoid]
      decide
    have hfilter : c₂.rest.head?.filter (·.spells "like") = none := by
      rw [hc₂, List.head?_cons, Option.filter_some, hspells]
      rfl
    rw [hfilter]
    exact .pure hc₂
  refine hlike.bind ?_
  rintro - c₃ hc₃
  refine (Yields.value hc₃ hkind' hzero (hspace hsp' hgeometry.solid)).bind ?_
  rintro material c₄ ⟨hc₄, hmaterial⟩
  have hdensity : Yields (density? material) c₄ fun _ us ↦ us = ts := by
    unfold Production.density?
    rw [hmaterial, if_pos (by decide)]
    exact .pure hc₄
  refine hdensity.bind ?_
  rintro density c₅ rfl
  refine (Yields.geometry h (List.append_nil _).symm skips_nil endsUnion_nil).bind ?_
  rintro geometry c₆ ⟨hc₆, htree⟩
  refine (Yields.parameters hc₆).bind ?_
  rintro _ c₇ ⟨hc₇, rfl⟩
  refine (Yields.finish hc₇).bind ?_
  rintro - c₈ hc₈
  exact .pure ⟨hc₈, rfl, htree⟩

end Production

/-! ## Cards -/

namespace Region

variable {r : Region} {x : RegionTree}

/-- The card of a cell of void. -/
def cardOf (text path : String) (first depth : Nat) : Card :=
  ⟨.cell, ["1 0 " ++ text], path, first, depth⟩

/-- The card of a cell is read by the grammar of cells. -/
theorem ofCard_cardOf (text path : String) (first depth : Nat) :
    Grammar.ofCard (cardOf text path first depth) = .cell := by
  have hwords : Text.words ("1 0 " ++ text).toList =
      ['1'] :: (['0'] :: Text.words text.toList) := by
    rw [String.toList_append]
    rfl
  have hread : (cardOf text path first depth).isRead = false := by
    unfold Card.isRead Card.firstWord? Card.codeLines
    simp only [cardOf, List.filter_cons, List.filter_nil]
    split_ifs
    · simp only [List.head?_cons, Option.bind_some, hwords, Option.map_some]
      decide
    · rfl
  rw [Grammar.ofCard, hread]
  rfl

/-- The regions that are built from sides by the algebra. -/
inductive Built : Region → Prop where
  | surface {n : Int} (inRange : n.natAbs ≤ Number.maxInt) : Built (.surface n)
  | outsideCell {n : Int} (inRange : n.natAbs ≤ Number.maxInt) : Built (.outsideCell n)
  | imported {r : Region} (h : Built r) : Built r.detached
  | and {a b : Region} (left : Built a) (right : Built b) : Built (a.and b)
  | or {a b : Region} (left : Built a) (right : Built b) : Built (a.or b)
  | complement {r : Region} (h : Built r) : Built r.complement
  | andWith {a b : Region} (left : Built a) (right : Built b) : Built (a.andWith b)
  | orWith {a b : Region} (left : Built a) (right : Built b) : Built (a.orWith b)

/-- A region without links that can be written. -/
structure IsPlain (r : Region) (x : RegionTree) : Prop where
  linked : r.Linked (fun _ _ ↦ False) x
  proper : x.IsProper
  inRange : x.InRange

/-- A plain region remembers no entries. -/
theorem IsPlain.origins (h : r.IsPlain x) : ∀ n ∈ r.nodes, n.origin = none := fun n hn ↦
  Option.eq_none_iff_forall_not_mem.mpr fun o ho ↦ h.linked.origins n hn o ho

/-- What is built from units is plain. -/
theorem Built.isPlain (h : Built r) : ∃ x, r.IsPlain x := by
  have hand : RegionOp.and ≠ .complement := by decide
  have hor : RegionOp.or ≠ .complement := by decide
  have inRange_join {op : RegionOp} {x y : RegionTree} (hx : x.InRange) (hy : y.InRange) :
      (RegionTree.join op x y).InRange := List.forall_mem_append.mpr ⟨hx, hy⟩
  have inRange_graft {op : RegionOp} {x y : RegionTree} (hx : x.InRange) (hy : y.InRange) :
      (x.graft op y).InRange := by
    rw [RegionTree.InRange, (RegionTree.agrees_graft op x y).sides_eq]
    exact inRange_join hx hy
  induction h with
  | @surface n inRange =>
    refine ⟨_, .ofSide _, ⟨n, rfl⟩, ?_⟩
    simpa [RegionTree.InRange, RegionTree.sides, Side.surface] using inRange
  | @outsideCell n inRange =>
    refine ⟨_, .outsideCell n, .inr ⟨n, rfl⟩, ?_⟩
    simpa [RegionTree.InRange, RegionTree.sides, Side.cell] using inRange
  | imported _ ih =>
    obtain ⟨x, hx, hproper, hrange⟩ := ih
    exact ⟨x, hx.detached, hproper, hrange⟩
  | complement _ ih =>
    obtain ⟨x, hx, hproper, hrange⟩ := ih
    exact ⟨_, hx.complement, .inl hproper, hrange⟩
  | and _ _ ihl ihr =>
    obtain ⟨x, hx, hproperx, hrangex⟩ := ihl
    obtain ⟨y, hy, hpropery, hrangey⟩ := ihr
    exact ⟨_, hx.combine hand hy, ⟨hproperx, hpropery⟩, inRange_join hrangex hrangey⟩
  | or _ _ ihl ihr =>
    obtain ⟨x, hx, hproperx, hrangex⟩ := ihl
    obtain ⟨y, hy, hpropery, hrangey⟩ := ihr
    exact ⟨_, hx.combine hor hy, ⟨hproperx, hpropery⟩, inRange_join hrangex hrangey⟩
  | andWith _ _ ihl ihr =>
    obtain ⟨x, hx, hproperx, hrangex⟩ := ihl
    obtain ⟨y, hy, hpropery, hrangey⟩ := ihr
    exact ⟨_, hx.graft hand hy, hproperx.graft _ hpropery, inRange_graft hrangex hrangey⟩
  | orWith _ _ ihl ihr =>
    obtain ⟨x, hx, hproperx, hrangex⟩ := ihl
    obtain ⟨y, hy, hpropery, hrangey⟩ := ihr
    exact ⟨_, hx.graft hor hy, hproperx.graft _ hpropery, inRange_graft hrangex hrangey⟩

/-- The tokens of a cell of void with a geometry. -/
def IsCellOf (x : RegionTree) (ts : List Token) : Prop :=
  ∃ t sp t' sp' us, ts = t :: sp :: t' :: sp' :: us ∧
    (t.kind.isNumber = true ∧ t.text = "1" ∧ sp.kind = .space) ∧
    (t'.kind.isNumber = true ∧ t'.text = "0" ∧ sp'.kind = .space) ∧ x.Spells .union us

/-- The written region behind a cell number and a void is cut into the tokens of a cell. -/
theorem IsPlain.lexes (h : r.IsPlain x) :
    Lexer.LexesAs ("1 0 " ++ x.written).toList (IsCellOf x) [] := by
  have number {n : Int} (hn : Number.minInt ≤ n ∧ n ≤ Number.maxInt) {cs : List Char}
      (hsolid : Lexer.StartsSolid (cs ++ [])) {Q : List Token → Prop}
        (hcs : Lexer.LexesAs cs Q []) :
      Lexer.LexesAs ((toString n).toList ++ (' ' :: cs)) (fun ts ↦ ∃ t sp us, ts = t :: sp :: us ∧
        (t.kind.isNumber = true ∧ t.text = toString n ∧ sp.kind = .space) ∧ Q us) [] := by
    have hspace := (Lexer.LexesAs.space hsolid).append hcs
      (S := fun ts ↦ ∃ sp us, ts = sp :: us ∧ sp.kind = .space ∧ Q us) (by
        rintro _ us ⟨sp, rfl, hsp⟩ hus
        exact ⟨sp, us, rfl, hsp, hus⟩)
    refine (Lexer.LexesAs.integer hn ?_).append hspace ?_
    · rintro _ ⟨⟩
      exact .inl rfl
    · rintro _ _ ⟨t, rfl, hkind, htext⟩ ⟨sp, us, rfl, hsp, hus⟩
      exact ⟨t, sp, us, rfl, ⟨hkind, htext, hsp⟩, hus⟩
  have hone : Number.minInt ≤ 1 ∧ 1 ≤ Number.maxInt := by decide
  have hzero : Number.minInt ≤ 0 ∧ 0 ≤ Number.maxInt := by decide
  have hwritten := RegionTree.isSpelled h.proper h.inRange [] (by rintro _ ⟨⟩)
  have hvoid := number hzero ((RegionTree.isSolid_written x).startsSolid []) hwritten
  have hcell := number hone (by rintro _ ⟨⟩; rfl) hvoid
  have htext : ("1 0 " ++ x.written).toList =
      (toString (1 : Int)).toList ++
      (' ' :: ((toString (0 : Int)).toList ++ (' ' :: x.written.toList))) := by
    rw [String.toList_append]
    rfl
  rw [htext]
  refine hcell.mono ?_
  rintro _ ⟨t, sp, _, rfl, ht, t', sp', us, rfl, ht', hus⟩
  exact ⟨t, sp, t', sp', us, rfl, ht, ht', hus.widen⟩

/-- The tokens of a cell are read as that cell, unless the region is nested too deep. -/
theorem IsCellOf.parse {ts : List Token} (h : IsCellOf x ts) :
    match (Cursor.of (.of ts)).parse .cell with
    | .error errors => ∃ span, errors = [.nestedTooDeep span]
    | .ok record => ∃ c, record = .cell c ∧ c.parameters = .empty ∧ ∃ tree z,
      c.geometry.IsTree tree ∧ tree.region? = some z ∧ z.Agrees x := by
  obtain ⟨t, sp, t', sp', us, rfl, ⟨hkind, htext, hsp⟩,
      ⟨hkind', htext', hsp'⟩, z, e, hz, hphrase⟩ := h
  have hnumber : Number.readInt? t.text = some 1 := by
    have hrange : Number.minInt ≤ 1 ∧ 1 ≤ Number.maxInt := by decide
    rw [htext]
    exact Number.readInt?_toString hrange
  have hrest : (Cursor.of (.of (t :: sp :: t' :: sp' :: us))).rest = t :: sp :: t' :: sp' :: us :=
    rfl
  have hyields : Production.Yields (Production.record .cell) (Cursor.of (.of _)) fun record ws ↦
      ws = [] ∧ ∃ c, record = .cell c ∧ c.parameters = .empty ∧ ∃ tree z,
        c.geometry.IsTree tree ∧ tree.region? = some z ∧ z.Agrees x :=
    (Production.Yields.cell hrest hkind hnumber hsp hkind' htext' hsp' hphrase).bind
      fun c c' ⟨hc', hparameters, tree, htree, hregion⟩ ↦
        .pure ⟨hc', c, rfl, hparameters, tree, z, htree, hregion, hz⟩
  have hsolid : (Cursor.of (.of (t :: sp :: t' :: sp' :: us))).stream.onlyLayoutLeft = false :=
    TokenStream.onlyLayoutLeft_of ⟨t, List.mem_cons_self, Token.isLayout_of_isNumber hkind⟩
  obtain ⟨c', herrors, ⟨record, hrun, -, hrecord⟩ | ⟨span, hrun⟩⟩ := hyields
  · have hnone : c'.errors.isEmpty = true := by
      rw [herrors]
      rfl
    rw [Cursor.parse, hsolid]
    simp only [hrun, hnone, Bool.false_eq_true, if_false, if_true]
    exact hrecord
  · have hnone : c'.errors = [] := herrors
    rw [Cursor.parse, hsolid]
    simp only [hrun, Bool.false_eq_true, if_false]
    exact ⟨span, by simp [Cursor.report, hnone]⟩

/-- A cell with the text of a region describes the region. -/
theorem IsPlain.parse_written (h : r.IsPlain x) (path : String) (first depth : Nat) :
    match (cardOf x.written path first depth).parse with
    | .error errors =>
      (∃ span, errors = [.nestedTooDeep span]) ∨ ∃ n, errors = [.lexical (.tooManyTokens n)]
    | .ok record => ∃ c, record = .cell c ∧ c.parameters = .empty ∧
      ∃ r', ofGeometry c.geometry = .ok r' ∧ r'.sides = r.sides ∧
        ∀ inside, r'.holds inside = r.holds inside := by
  have htext : (cardOf x.written path first depth).text = "1 0 " ++ x.written := rfl
  have hverbatim (text : String) (errors : List SyntaxError) :
      canKeepVerbatim .cell text errors = false := rfl
  have hparse : (cardOf x.written path first depth).parse =
      Grammar.cell.parse ("1 0 " ++ x.written) := by
    unfold Card.parse
    simp only [ofCard_cardOf, htext, hverbatim]
    cases Grammar.cell.parse ("1 0 " ++ x.written) <;> rfl
  have hmode : Grammar.cell.mode = .cell := rfl
  rw [hparse, Grammar.parse, hmode]
  obtain ⟨n, hmany⟩ | ⟨ts, htokens, hcell⟩ := h.lexes.tokenize
  · rw [String.ofList_toList] at hmany
    rw [hmany]
    exact .inr ⟨n, rfl⟩
  · rw [String.ofList_toList] at htokens
    rw [htokens]
    have hrecord := hcell.parse
    dsimp only at hrecord ⊢
    generalize (Cursor.of (.of ts)).parse .cell = outcome at hrecord ⊢
    cases outcome with
    | error errors => exact .inl hrecord
    | ok record =>
      obtain ⟨c, rfl, hparameters, tree, z, htree, hregion, hz⟩ := hrecord
      refine ⟨c, rfl, hparameters, ?_⟩
      obtain ⟨s, ss, hstrands, -⟩ := htree.holds.strands
      have hdepth := htree.holds.depth_le_size List.nodup_range
      rcases ofGeometry_spec hstrands hdepth with ⟨z', r', hz', hr', hlinked⟩ | ⟨hnone, -⟩
      · obtain rfl := Option.some.inj (hregion.symm.trans hz')
        refine ⟨r', hr', ?_, fun inside ↦ ?_⟩
        · rw [hlinked.isTree.sides_eq, h.linked.isTree.sides_eq, hz.sides_eq]
        · rw [hlinked.isTree.holds_eq, h.linked.isTree.holds_eq, hz.holds_eq]
      · rw [hregion] at hnone
        cases hnone

/-- The text of a region that was built from sides has parentheses only where they are needed, and a
cell with this text describes the region again. -/
theorem Built.reparse (h : Built r) (t : Tolerance) (path : String) (first depth : Nat) :
    let text := (r.toGeometry.render t).text
    (∃ x, r.IsTree x ∧ text = x.written) ∧
      match (cardOf text path first depth).parse with
      | .error errors =>
        (∃ span, errors = [.nestedTooDeep span]) ∨ ∃ n, errors = [.lexical (.tooManyTokens n)]
      | .ok record => ∃ c, record = .cell c ∧ c.parameters = .empty ∧
        ∃ r', ofGeometry c.geometry = .ok r' ∧ r'.sides = r.sides ∧
          ∀ inside, r'.holds inside = r.holds inside := by
  obtain ⟨x, hx⟩ := h.isPlain
  have htext := text_toGeometry hx.linked.isTree hx.origins t
  refine ⟨⟨x, hx.linked.isTree, htext⟩, ?_⟩
  rw [htext]
  exact hx.parse_written path first depth

/-- Either side of a union inside of an intersection: the union is put in parentheses. -/
theorem reparse_of_union :
    let r := ((surface 1).or (surface (-2))).and (outsideCell 3)
    let text := (r.toGeometry.render .standard).text
    Built r ∧ text = "(1:-2) #3" ∧ (∃ x, r.IsTree x ∧ text = x.written) ∧
      match (cardOf text "" 1 0).parse with
      | .error errors =>
        (∃ span, errors = [.nestedTooDeep span]) ∨ ∃ n, errors = [.lexical (.tooManyTokens n)]
      | .ok record => ∃ c, record = .cell c ∧ c.parameters = .empty ∧
        ∃ r', ofGeometry c.geometry = .ok r' ∧ r'.sides = r.sides ∧
          ∀ inside, r'.holds inside = r.holds inside := by
  have hbuilt : Built (((surface 1).or (surface (-2))).and (outsideCell 3)) :=
    .and (.or (.surface (by decide)) (.surface (by decide))) (.outsideCell (by decide))
  exact ⟨hbuilt, by decide +kernel, hbuilt.reparse .standard "" 1 0⟩

end Region

end TransportDeck
