import TransportDeck.Proofs.Grammar.CellReading
import TransportDeck.Proofs.Node.Additions
import TransportDeck.Proofs.Token.ShorterTexts

/-!
# Removed parameters

A cell that is written as it was read is, without one of its parameters, written without the text of
that parameter.  What is left has the same tokens, so it is read as the cell with the remaining
parameters.
-/

namespace TransportDeck

open Text Lexer Production

/-! ## Parameters as their sources -/

namespace Parameters

theorem map_text_closeAll {ps : List Parameter} (h : ∀ p ∈ ps, p.IsRead)
    (hvalues : ∀ p ∈ ps, p.values.Faithful) (hapart : ∀ p ∈ ps.dropLast, p.IsApart) :
    (closeAll ps).map (fun p ↦ (p.render .standard).text) = ps.map Parameter.source := by
  fun_induction closeAll ps with
  | case1 => rfl
  | case2 p =>
    rw [List.map_singleton, List.map_singleton]
    exact congrArg ([·]) ((h p (by simp)).echoes.eq_iff.mpr (hvalues p (by simp)))
  | case3 p ps hne ih =>
    obtain ⟨hp, hps⟩ := List.forall_mem_cons.mp h
    obtain ⟨hpValues, hpsValues⟩ := List.forall_mem_cons.mp hvalues
    rw [List.dropLast_cons_of_ne_nil (by simpa using hne)] at hapart
    obtain ⟨hpApart, hpsApart⟩ := List.forall_mem_cons.mp hapart
    rw [List.map_cons, List.map_cons, ih hps hpsValues hpsApart]
    exact congrArg (· :: _) (hp.echoes_closed.eq_iff.mpr ⟨hpValues, hpApart⟩)

/-- The parameters in front of a place, and those behind it. -/
def upTo (ps : Parameters) (i : Nat) : Parameters := { ps with params := ps.params.take i }

def behind (ps : Parameters) (i : Nat) : Parameters := { ps with params := ps.params.drop (i + 1) }

/-- Removing takes out the parameter that is found. -/
theorem params_of_remove? {ps ps' : Parameters} {key : String} {p : Parameter} {i : Nat}
    (h : ps.remove? key = some (p, ps')) (hi : ps.find? key = some i) :
    i < ps.params.length ∧ ps'.params = (ps.upTo i).params ++ (ps.behind i).params := by
  obtain ⟨j, hj, hremoved⟩ := Option.bind_eq_some_iff.mp h
  obtain rfl : j = i := Option.some.inj (hj.symm.trans hi)
  obtain ⟨q, hq, hpair⟩ := Option.bind_eq_some_iff.mp hremoved
  obtain ⟨rfl, rfl⟩ := Prod.mk.inj (Option.some.inj hpair)
  exact ⟨(List.getElem?_eq_some_iff.mp hq).1, List.eraseIdx_eq_take_drop_succ _ _⟩

end Parameters

variable {source : String} {rest : List Char} {ts us vs : List Token} {c head : CellRecord}
  {raws qs rs : List Parameter}
  {p : Parameter} {c₁ c₂ c₃ : Cursor}

/-- A heading has no parameters. -/
theorem parameters_of_heading {c c' : Cursor} {r : CellRecord} (h : heading.run c = (.ok r, c')) :
    r.parameters = .empty := by
  obtain ⟨_, _, -, h⟩ := run_bind_ok h
  obtain ⟨_, _, -, h⟩ := run_bind_ok h
  obtain ⟨_, _, -, h⟩ := run_bind_ok h
  obtain ⟨_, _, -, h⟩ := run_bind_ok h
  obtain ⟨_, _, -, h⟩ := run_bind_ok h
  obtain ⟨_, _, -, h⟩ := run_bind_ok h
  cases h
  rfl

/-- A heading that has been read with these parameters behind it, all of it written as its
source. -/
structure CellRecord.IsAsRead (c head : CellRecord) (raws : List Parameter) : Prop where
  parameters : c.parameters = .of raws
  heading : head.SameHeading c
  text_heading : ((c.setParameters .empty).render .standard).text = head.source
  map_text : c.parameters.params.map (fun p ↦ (p.render .standard).text) = raws.map Parameter.source
  geometry : head.geometry.Faithful

/-- The heading and the parameters of a cell are written as they were read if the cell is. -/
theorem exists_isAsRead (hts : tokenize .cell source = .ok ts)
    (hparse : (Cursor.of (.of ts)).parse .cell = .ok (.cell c))
    (htext : (Record.cell c).text = source) :
    ∃ head raws c', HasRead ts head raws c' ∧ c'.rest = [] ∧ (raws.map Parameter.key).Nodup ∧
      c = head.setParameters (.of raws) ∧ c.IsAsRead head raws := by
  have hlex := spells_of_tokensFrom hts
  obtain ⟨head, raws, c', hread, hnil, hkeys, hrecord⟩ := exists_hasRead_of_parse hlex hparse
  obtain rfl := Record.cell.inj hrecord
  obtain ⟨us, hus, hsource, hhead, hraws⟩ := hread.exists_tokens hlex
  rw [hnil, List.append_nil] at hus
  subst hus
  have hsourceText : source = textOf ts := by
    have := (tokenize_eq_ok_iff.mp hts).1.eq_append
    rw [List.append_nil] at this
    exact String.toList_inj.mp this
  obtain ⟨c₀, hrun, -⟩ := hread.exists_place
  have hempty := parameters_of_heading hrun
  -- The record as it was read, before room was made between its parameters.
  let raw : CellRecord := head.setParameters ⟨raws, (raws.map Parameter.key).zipIdx⟩
  have hrawRead : raw.IsRead :=
    ⟨hhead.number, hhead.material, hhead.density, hhead.geometry, hraws, hhead.not_pending⟩
  have hrawSource : raw.source = source := by
    rw [hsourceText, hsource, CellRecord.source, CellRecord.source, hempty]
    simp [raw, CellRecord.setParameters, Parameters.source, Parameters.empty, String.append_assoc]
  have hfaithful : raw.Faithful := hrawRead.echoes.eq_iff.mp (htext.trans hrawSource.symm)
  have hheadText : (head.closed.render .standard).text = head.source := by
    refine hhead.echoes.eq_iff.mpr ⟨hfaithful.geometry, ?_⟩
    rw [hempty]
    exact ⟨by simp [Parameters.empty], by simp [Parameters.empty]⟩
  have hclosed : head.closed = (head.setParameters (.of raws)).setParameters .empty := by
    rw [CellRecord.closed, hempty]
    rfl
  exact ⟨head, raws, c', hread, hnil, hkeys, rfl, rfl, ⟨rfl, rfl, rfl, rfl⟩, hclosed ▸ hheadText,
    Parameters.map_text_closeAll hraws hfaithful.parameters.values hfaithful.parameters.apart,
    hfaithful.geometry⟩

/-! ## Cells without a parameter -/

theorem starts_of_opensParameter (h : opensParameter ts = true) : ∃ t us, ts = t :: us ∧
    (isWord t = true ∨ isMark t = true) := by
  cases ts with
  | nil => cases h
  | cons t us =>
    refine ⟨t, us, rfl, ?_⟩
    by_cases hmark : isMark t = true
    · exact .inr hmark
    · left
      simpa [opensParameter, hmark] using h

theorem isSolid_of_starts {t : Token} (h : isWord t = true ∨ isMark t = true) : IsSolid t.kind := by
  obtain ⟨kind, text, span⟩ := t
  change IsSolid kind
  rcases h with hword | hmark
  · change kind.isWord = true at hword
    cases kind <;> first | decide | cases hword
  · cases kind <;> first | decide | cases hmark

theorem stops_of_alike {ts us : List Token} (h : List.Forall₂ Token.Alike ts us) (hts : Stops ts) :
    Stops us := by
  cases h with
  | nil => exact hts
  | @cons t u ts us htu hrest =>
    rintro _ ⟨⟩
    obtain ⟨kind, text, span⟩ := t
    obtain ⟨kind', text', span'⟩ := u
    obtain rfl : kind = kind' := htu.kind_eq
    exact hts ⟨kind, text, span⟩ rfl

namespace Production.ParameterRun

/-- Parameters start in front of them, and nothing stands behind the last ones. -/
theorem stops (h : ParameterRun c₁ raws c₂) (hnil : c₂.rest = []) : Stops c₁.rest := by
  cases h with
  | stop =>
    rw [hnil]
    simp [Stops]
  | step starts reads rest =>
    obtain ⟨t, us, hts, ht⟩ := starts_of_opensParameter starts
    rw [hts]
    rintro _ ⟨⟩
    exact ht

end Production.ParameterRun

/-- The tokens of a cell with a parameter in the middle: those in front of it, its own ones, which
start with `t`, and those behind it. -/
structure HasMiddle (ts us : List Token) (t : Token) (ms vs : List Token) (head : CellRecord)
    (qs : List Parameter) (rs : List Parameter) : Prop where
  tokens_eq : ts = us ++ t :: (ms ++ vs)
  solid : IsSolid t.kind
  solid_behind : ∀ v ∈ vs.head?, IsSolid v.kind
  text_front : textOf us = head.source ++ String.join (qs.map Parameter.source)
  text_behind : textOf vs = String.join (rs.map Parameter.source)
  /-- Without it the others are read as before. -/
  exists_parse : ((qs ++ rs).map Parameter.key).Nodup → (∀ u ∈ us.getLast?, goesOn u = false) →
    ∀ vs', List.Forall₂ Token.Alike vs vs' → ∃ r ps, SameParameters (qs ++ rs) ps ∧
    head.SameHeading r ∧
      (Cursor.of (.of (us ++ vs'))).parse .cell = .ok (.cell (r.setParameters (.of ps)))

theorem exists_hasMiddle (hlex : ∀ t ∈ ts, Spells t.kind t.text)
    (hread : HasRead ts head (qs ++ p :: rs) c₃) (hnil : c₃.rest = []) :
    ∃ us t ms vs, HasMiddle ts us t ms vs head qs rs := by
  obtain ⟨c₁, hfront, hrun⟩ := hread.exists_of_append
  obtain ⟨us, rfl, htext, -⟩ := hfront.exists_tokens hlex
  have hstops := hrun.stops hnil
  have hlex₁ : c₁.IsLexed := fun t ht ↦ hlex t (List.mem_append_right _ ht)
  cases hrun with
  | @step _ c₂ _ _ _ starts reads rest =>
    obtain ⟨hc₂, hpasses⟩ := passes_parameter hfront.no_errors starts reads
    obtain ⟨mid, hmid, hmidText, -⟩ := (ParameterRun.step starts reads .stop).exists_tokens hlex₁
    have hlex₂ := hlex₁.of_append hmid
    obtain ⟨vs, hvs, hvsText, -⟩ := rest.exists_tokens hlex₂
    rw [hnil, List.append_nil] at hvs
    have hbehind := rest.stops hnil
    subst hvs
    have hne : mid ≠ [] := by
      rintro rfl
      have := hpasses.length_le
      rw [hmid, List.nil_append] at this
      omega
    obtain ⟨t, ms, rfl⟩ := List.exists_cons_of_ne_nil hne
    have ht : isWord t = true ∨ isMark t = true := hstops t (by rw [hmid]; rfl)
    refine ⟨us, t, ms, c₂.rest, by rw [hmid, List.cons_append], isSolid_of_starts ht,
      fun v hv ↦ isSolid_of_starts (hbehind v hv), htext, hvsText, fun hkeys hedge vs' halike ↦ ?_⟩
    let s : Seam := ⟨c₁.rest, vs', hstops, stops_of_alike halike hbehind⟩
    have hlike : s.Like (us ++ c₁.rest) (us ++ vs') :=
      ⟨us, us, [], [], rfl, rfl, List.forall₂_same.mpr fun _ _ ↦
        ⟨rfl, rfl⟩, by simp, by simp, .inl hedge⟩
    obtain ⟨r, ps, hsame, hheading, hparse⟩ :=
      hfront.parse_spliced hlike rfl (fun d hd hsettled herrors hdepth ↦
      rest.exists_alike hc₂ hnil herrors hsettled (hdepth.trans hpasses.depth_eq.symm)
        (hd ▸ halike)) hkeys
    exact ⟨r, ps, hsame, hheading, hparse⟩

/-! ## Texts without a parameter -/

namespace CellRecord.IsAsRead

variable {i : Nat} {p : Parameter} (h : c.IsAsRead head (qs ++ p :: rs)) (hi : i = qs.length)
include h hi

theorem map_text_upTo : ((c.parameters.upTo i).params.map fun p ↦ (p.render .standard).text) =
    qs.map Parameter.source := by
  rw [Parameters.upTo, List.map_take, h.map_text, List.map_append, List.take_left' (by simp [hi])]

theorem map_text_behind : ((c.parameters.behind i).params.map fun p ↦ (p.render .standard).text) =
    rs.map Parameter.source := by
  rw [Parameters.behind, List.map_drop, h.map_text, ← List.map_drop, hi,
    ← List.drop_drop, List.drop_left]
  rfl

theorem text_upTo : ((c.setParameters (c.parameters.upTo i)).render .standard).text =
    head.source ++ String.join (qs.map Parameter.source) := by
  rw [text_setParameters, h.text_heading, Parameters.text_render, h.map_text_upTo hi]

theorem text_behind :
    ((c.parameters.behind i).render .standard).text = String.join (rs.map Parameter.source) := by
  rw [Parameters.text_render, h.map_text_behind hi]

end CellRecord.IsAsRead

namespace CellRecord

/-- What is written of a cell in front of one of its parameters. -/
def textUpTo (c : CellRecord) (i : Nat) : String :=
  ((c.setParameters (c.parameters.upTo i)).render .standard).text

/-- What is written behind it. -/
def textBehind (c : CellRecord) (i : Nat) : String :=
  ((c.parameters.behind i).render .standard).text

/-- The same cell, up to layout. -/
structure Alike (c c' : CellRecord) : Prop where
  heading : c.SameHeading c'
  parameters : SameParameters c.parameters.params c'.parameters.params

theorem Alike.trans {c c' c'' : CellRecord} (h : c.Alike c') (h' : c'.Alike c'') : c.Alike c'' where
  heading :=
    ⟨h.heading.number.trans h'.heading.number, h.heading.material.trans h'.heading.material,
      h.heading.density.trans h'.heading.density, h.heading.geometry.trans h'.heading.geometry⟩
  parameters := sameParameters_iff.mpr
    ((sameParameters_iff.mp h.parameters).trans (sameParameters_iff.mp h'.parameters))

variable {key : String} {ps : Parameters} {i : Nat}

/-- Without a parameter a cell is written as what stands in front of it and behind it. -/
theorem text_of_remove? (h : c.parameters.remove? key = some (p, ps))
    (hi : c.parameters.find? key = some i) :
    (Record.cell (c.setParameters ps)).text = c.textUpTo i ++ c.textBehind i := by
  have hparams := (Parameters.params_of_remove? h hi).2
  change ((c.setParameters ps).render .standard).text = _
  rw [textUpTo, textBehind, text_setParameters, text_setParameters c (c.parameters.upTo i),
    Parameters.text_render, hparams, List.map_append, String.join_append, ← Parameters.text_render,
    ← Parameters.text_render,
    String.append_assoc]

/-- What is left of a cell without one of its parameters is read as the cell without it. -/
theorem exists_parse_removed (hts : tokenize .cell source = .ok ts)
    (hparse : (Cursor.of (.of ts)).parse .cell = .ok (.cell c))
    (htext : (Record.cell c).text = source) (hremove : c.parameters.remove? key = some (p, ps))
    (hi : c.parameters.find? key = some i)
    (hbreak : ∀ b ∈ (c.textUpTo i).toList.getLast?, b ∈ breaks)
    (hstart : ∀ d ds, (c.textBehind i).toList = d :: ds →
      startsComment (marginAfter (some 0) (c.textUpTo i).toList) d ds = false) :
    ∃ us, tokenize .cell (c.textUpTo i ++ c.textBehind i) = .ok us ∧ ∃ c',
      (Cursor.of (.of us)).parse .cell = .ok (.cell c') ∧ (c.setParameters ps).Alike c' := by
  have hlex := spells_of_tokensFrom hts
  obtain ⟨head, raws, c₁, hread, hnil, hkeys, -, hasRead⟩ := exists_isAsRead hts hparse htext
  obtain ⟨hlt, hparams⟩ := Parameters.params_of_remove? hremove hi
  have hraws : c.parameters.params = Parameters.closeAll raws :=
    congrArg Parameters.params hasRead.parameters
  rw [hraws, Parameters.length_closeAll] at hlt
  obtain ⟨qs, q, rs, rfl, hqs⟩ : ∃ qs q rs, raws = qs ++ q :: rs ∧ i = qs.length :=
    ⟨raws.take i, raws[i], raws.drop (i + 1), by
      rw [← List.drop_eq_getElem_cons, List.take_append_drop],
      by rw [List.length_take]; omega⟩
  obtain ⟨us, t, ms, vs, hmiddle⟩ := exists_hasMiddle hlex hread hnil
  have hfront : c.textUpTo i = textOf us := (hasRead.text_upTo hqs).trans hmiddle.text_front.symm
  have hbehind : c.textBehind i = textOf vs :=
    (hasRead.text_behind hqs).trans hmiddle.text_behind.symm
  rw [hfront] at hbreak hstart ⊢
  rw [hbehind] at hstart ⊢
  obtain ⟨vs', hvs', halike⟩ :=
    exists_tokenize_without (hmiddle.tokens_eq ▸ hts)
      hmiddle.solid hmiddle.solid_behind hbreak hstart
  have hedge : ∀ u ∈ us.getLast?, goesOn u = false := fun u hu ↦ by
    obtain ⟨mid, hus, -⟩ := (tokenize_eq_ok_iff.mp hvs').1.exists_of_append
    obtain ⟨kind, text, span⟩ := u
    rcases hus.kind_of_getLast? hu hbreak with hlayout | hparen
    · change kind.isLayout = true at hlayout
      cases kind <;> first | rfl | cases hlayout
    · obtain rfl : kind = .rightParen := hparen
      rfl
  have hkeys' : ((qs ++ rs).map Parameter.key).Nodup :=
    hkeys.sublist (((List.Sublist.refl qs).append (List.sublist_cons_self q rs)).map _)
  obtain ⟨r, ps', hsame, hheading, hparse'⟩ := hmiddle.exists_parse hkeys' hedge vs' halike
  refine ⟨_, hvs', _, hparse', ⟨?_, ?_⟩⟩
  · have hc := hasRead.heading
    exact ⟨hc.number.symm.trans hheading.number, hc.material.symm.trans hheading.material,
      hc.density.symm.trans hheading.density, hc.geometry.symm.trans hheading.geometry⟩
  · have hold := sameParameters_iff.mp (sameParameters_closeAll (qs ++ q :: rs))
    have hnew := sameParameters_iff.mp hsame
    rw [sameParameters_iff]
    calc ps.params.map Parameter.bare
        = ((Parameters.closeAll (qs ++ q :: rs)).map Parameter.bare).take i ++
            ((Parameters.closeAll (qs ++ q :: rs)).map Parameter.bare).drop (i + 1) := by
          rw [hparams, List.map_append, Parameters.upTo, Parameters.behind,
            List.map_take, List.map_drop, hraws]
      _ = (qs ++ rs).map Parameter.bare := by
          rw [← hold, hqs, ← List.map_take, ← List.map_drop, List.take_left, ← List.drop_drop,
            List.drop_left, List.map_append]
          rfl
      _ = (Parameters.closeAll ps').map Parameter.bare :=
        hnew.trans (sameParameters_iff.mp (sameParameters_closeAll ps'))

/-- Layout at the end of a cell may be left out. -/
theorem exists_parse_trimmed {gap : List Token} (hlex : ∀ t ∈ us ++ gap, Spells t.kind t.text)
    (hgap : ∀ t ∈ gap, t.isLayout = true)
    (hparse : (Cursor.of (.of (us ++ gap))).parse .cell = .ok (.cell c)) :
    ∃ c', (Cursor.of (.of us)).parse .cell = .ok (.cell c') ∧ c.Alike c' := by
  obtain ⟨head, raws, c₁, hread, hnil, hkeys, hrecord⟩ := exists_hasRead_of_parse hlex hparse
  obtain rfl := Record.cell.inj hrecord
  have hapart : IsApart gap := by
    cases gap with
    | nil => exact Seam.isApart_nil
    | cons t gap => simpa using isApart_of_isLayout hgap (List.cons_ne_nil t gap) []
  have hlike : Seam.ends.Like (us ++ gap) us :=
    ⟨us, us, gap, [], by
      simp [Seam.ends], by simp [Seam.ends], List.forall₂_same.mpr fun _ _ ↦ ⟨rfl, rfl⟩, hgap,
      by simp, .inr ⟨by simpa [Seam.ends] using hapart, Seam.isApart_nil⟩⟩
  obtain ⟨r, ps, hsame, hheading, hparse'⟩ := hread.parse_spliced hlike hnil
    (fun d hd _ _ _ ↦ ⟨[], d, .stop, (List.Forall₂.nil : SameParameters [] []), hd⟩)
      (by simpa using hkeys)
  rw [List.append_nil] at hsame
  exact ⟨_, hparse', ⟨hheading.number, hheading.material, hheading.density, hheading.geometry⟩,
    hsame.closeAll⟩

end CellRecord

end TransportDeck
