import TransportDeck.Proofs.Grammar.MirroredCells
import TransportDeck.Proofs.Grammar.ParameterRuns
import TransportDeck.Proofs.Grammar.Records

/-!
# How cells are read

A cell is read exactly if its tokens are a heading and behind it parameters with distinct keys.
Each of the two parts has been read from its own tokens.
-/

namespace TransportDeck

namespace Production

variable {c c' : Cursor} {r : CellRecord} {ps : List Parameter}

/-! ## Headings -/

theorem Reads.heading : Reads heading c fun r ts ↦ r.IsRead ∧ r.source = textOf ts := by
  refine Reads.layout.bind fun leading ls c₁ _ hleading ↦ ?_
  refine (Reads.value _ _).bind fun number ns c₂ _ hnumber ↦ ?_
  refine Reads.refuseLike.bind ?_
  rintro _ _ c₃ - rfl
  refine (Reads.value _ _).bind fun material ms c₄ _ hmaterial ↦ ?_
  refine (Reads.density? material).bind fun density ds c₅ _ hdensity ↦ ?_
  refine (Reads.geometry .cell).bind fun geometry gs c₆ _ hgeometry ↦ ?_
  obtain ⟨tree, htree, hread, hsource⟩ := hgeometry
  refine .pure ⟨⟨hnumber.isRead, hmaterial.isRead, hdensity.1, ⟨tree, htree, hread⟩, ?_, rfl⟩, ?_⟩
  · simp [Parameters.IsRead, Parameters.empty]
  · simp [CellRecord.source, hleading, hnumber.source_eq, hmaterial.source_eq, hdensity.2, hsource,
      Parameters.source, Parameters.empty, String.append_assoc]

theorem settles_heading : Settles heading := by
  refine .of_bind fun _ ↦ .of_bind fun _ ↦ .of_bind fun _ ↦ .of_bind fun _ ↦ .of_bind fun _ ↦ ?_
  exact (settles_geometry .cell).bind fun _ ↦ .pure

/-- A heading has no parameters, and it reports nothing. -/
theorem no_errors_of_heading (hc : c.errors = []) (h : heading.run c = (.ok r, c')) :
    c'.errors = [] := by
  obtain ⟨_, d, hrun, -, htracks, -⟩ := Mirrors.heading (Seam.tracks_ends hc) r c' h
  obtain ⟨-, rfl⟩ := Prod.mk.inj (h.symm.trans hrun)
  exact htracks.no_errors

/-- The number of a cell is no layout. -/
theorem exists_token_of_heading (h : heading.run c = (.ok r, c')) :
    ∃ t ∈ c.rest, t.isLayout = false := by
  by_contra hall
  push Not at hall
  simp only [ne_eq, Bool.not_eq_false] at hall
  obtain ⟨_, c₁, hlayout, hrest⟩ := run_bind_ok h
  obtain ⟨number, c₂, hnumber, -⟩ := run_bind_ok hrest
  have hnil : c₁.rest = [] := by
    cases hlayout
    exact (Mirrors.rest_takeWhile c Token.isLayout).trans (List.dropWhile_eq_nil_iff.mpr hall)
  have hidle : Seam.Idle c₁.rest := by simp [Seam.Idle, hnil]
  exact Mirrors.run_value_ne_ok hidle (by decide) _ number c₂ hnumber

/-! ## Parameters -/

theorem keeps_parameter (g : Grammar) : Keeps (parameter g) := by
  refine (settles_classifier g).keeps.bind fun _ ↦ (keeps_separator? g).bind fun _ ↦
    (keeps_values g .int).bind fun _ ↦ ?_
  split_ifs
  · exact Settles.unexpected.keeps
  · exact .pure

namespace ParameterRun

theorem isSettled (h : ParameterRun c ps c') (hc : c.IsSettled) : c'.IsSettled := by
  induction h with
  | stop => exact hc
  | step _ reads _ ih => exact ih (keeps_parameter .cell _ _ _ hc reads)

/-- The parameters have been read from the tokens that the run has passed. -/
theorem exists_tokens (h : ParameterRun c ps c') (hlex : c.IsLexed) : ∃ ts, c.rest = ts ++ c'.rest ∧
    textOf ts = String.join (ps.map Parameter.source) ∧ ∀ p ∈ ps, p.IsRead := by
  induction h with
  | stop => exact ⟨[], rfl, rfl, by simp⟩
  | step _ reads _ ih =>
    obtain ⟨-, ts, hts, hread, hsource⟩ := Reads.parameter .cell hlex _ _ reads
    obtain ⟨us, hus, htext, hall⟩ := ih (hlex.of_append hts)
    refine ⟨ts ++ us, by
      rw [hts, hus, List.append_assoc], ?_, List.forall_mem_cons.mpr ⟨hread, hall⟩⟩
    rw [textOf_append, htext, List.map_cons, String.join_cons, hsource]

end ParameterRun

/-- Nothing is left to finish at the end. -/
theorem run_finish_of_nil (h : c.rest = []) :
    ∃ c', finish.run c = (.ok (), c') ∧ c'.errors = c.errors := by
  let c' : Cursor := { c with stream := (c.stream.takeWhile Token.isLayout).2 }
  have hnone : c'.stream.current? = none := by
    rw [c'.stream.current?_eq_head?]
    change c'.rest.head? = none
    rw [show c'.rest = _ from Mirrors.rest_takeWhile c Token.isLayout, h]
    rfl
  have hcurrent : (current?).run c' = (.ok none, c') := congrArg (fun t ↦ (Except.ok t, c')) hnone
  refine ⟨c', ?_, rfl⟩
  have hlayout : ∃ l, layout.run c = (.ok l, c') := ⟨_, rfl⟩
  obtain ⟨l, hlayout⟩ := hlayout
  rw [finish, run_bind_of_ok hlayout, run_bind_of_ok hcurrent]
  rfl

/-! ## Places in a cell -/

variable {ts us : List Token} {p : Parameter} {qs : List Parameter}

/-- What has been read at a place of a cell: its heading and some of its parameters. -/
structure HasRead (ts : List Token) (r : CellRecord) (ps : List Parameter) (c : Cursor) : Prop where
  exists_place : ∃ c₀, heading.run (.of (.of ts)) = (.ok r, c₀) ∧ ParameterRun c₀ ps c

namespace HasRead

theorem no_errors (h : HasRead ts r ps c) : c.errors = [] := by
  obtain ⟨c₀, hhead, hps⟩ := h.exists_place
  exact hps.no_errors (no_errors_of_heading rfl hhead)

theorem isSettled (h : HasRead ts r ps c) : c.IsSettled := by
  obtain ⟨c₀, hhead, hps⟩ := h.exists_place
  exact hps.isSettled (settles_heading _ _ _ hhead)

theorem append (h : HasRead ts r ps c) (h' : ParameterRun c qs c') :
    HasRead ts r (ps ++ qs) c' := by
  obtain ⟨c₀, hhead, hps⟩ := h.exists_place
  exact ⟨c₀, hhead, hps.append h'⟩

theorem exists_of_append (h : HasRead ts r (ps ++ qs) c') :
    ∃ c, HasRead ts r ps c ∧ ParameterRun c qs c' := by
  obtain ⟨c₀, hhead, hps⟩ := h.exists_place
  obtain ⟨c, hps, hqs⟩ := hps.exists_of_append
  exact ⟨c, ⟨c₀, hhead, hps⟩, hqs⟩

/-- The tokens in front of the place are those that have been read. -/
theorem exists_tokens (h : HasRead ts r ps c) (hlex : ∀ t ∈ ts, Lexer.Spells t.kind t.text) :
    ∃ us, ts = us ++ c.rest ∧ textOf us = r.source ++ String.join (ps.map Parameter.source) ∧
      r.IsRead ∧ ∀ p ∈ ps, p.IsRead := by
  obtain ⟨c₀, hhead, hps⟩ := h.exists_place
  have hlex₀ : (Cursor.of (.of ts)).IsLexed := hlex
  obtain ⟨-, vs, hvs, hread, hsource⟩ := Reads.heading hlex₀ r c₀ hhead
  obtain ⟨ws, hws, htext, hall⟩ := hps.exists_tokens (hlex₀.of_append hvs)
  refine ⟨vs ++ ws, ?_, by rw [textOf_append, htext, hsource], hread, hall⟩
  rw [List.append_assoc, ← hws]
  exact hvs

end HasRead

/-! ## Whole cells -/

theorem parameters_cell : parameters .cell = loop (parameter? .cell) (.of []) := rfl

theorem exists_hasRead_of_parse {r : Record} (hlex : ∀ t ∈ ts, Lexer.Spells t.kind t.text)
    (h : (Cursor.of (.of ts)).parse .cell = .ok r) : ∃ head ps c, HasRead ts head ps c ∧
      c.rest = [] ∧ (ps.map Parameter.key).Nodup ∧ r = .cell (head.setParameters (.of ps)) := by
  obtain ⟨-, c', hrun, hnone⟩ := Cursor.parse_eq_ok_iff.mp h
  have hlex₀ : (Cursor.of (.of ts)).IsLexed := hlex
  have hrecord : (do return Record.cell (← cell .cell) : Production Record).run (.of (.of ts)) =
      (.ok r, c') := hrun
  obtain ⟨cell, c₃, hcell, hpure⟩ := run_bind_ok hrecord
  cases hpure
  rw [cell_eq_heading] at hcell
  obtain ⟨head, c₁, hhead, hcell⟩ := run_bind_ok hcell
  obtain ⟨ps, c₂, hps, hcell⟩ := run_bind_ok hcell
  obtain ⟨_, c₃, hfinish, hpure⟩ := run_bind_ok hcell
  cases hpure
  have hc₁ := no_errors_of_heading rfl hhead
  obtain ⟨-, us, hus, -⟩ := Reads.heading hlex₀ head c₁ hhead
  have hlex₁ := hlex₀.of_append hus
  have hsettled := keeps_parameters .cell c₁ ps c₂ (settles_heading _ _ _ hhead) hps
  obtain ⟨vs, hvs, -⟩ := ReadsOrReports.parameters .cell hlex₁ ps c₂ hps
  obtain ⟨herrors, -, -, -, hnil⟩ :=
    Reads.finish_of_isSettled hsettled (hlex₁.of_append hvs) _ _ hfinish
  have hc₂ : c₂.errors = [] := herrors.symm.trans hnone
  rw [parameters_cell] at hps
  have hlength := c₁.stream.rest_length
  obtain ⟨raws, hraws, -, hkeys, rfl⟩ := parameterRun_of_rounds _
    (by change c₁.stream.rest.length < _; omega) hlex₁ hc₁ hc₂ [] List.nodup_nil hps
  exact ⟨head, raws, c₂, ⟨c₁, hhead, hraws⟩, hnil, hkeys, rfl⟩

/-- A heading and parameters with distinct keys are a cell. -/
theorem HasRead.parse_eq (h : HasRead ts r ps c') (hends : c'.rest = [])
    (hkeys : (ps.map Parameter.key).Nodup) :
    (Cursor.of (.of ts)).parse .cell = .ok (.cell (r.setParameters (.of ps))) := by
  obtain ⟨c, hhead, hps⟩ := h.exists_place
  have hc := no_errors_of_heading rfl hhead
  have hc' := h.no_errors
  have hstop : opensParameter c'.rest = false := by
    rw [hends]
    rfl
  have hlength := c.stream.rest_length
  have hparameters : (parameters .cell).run c = (.ok (.of ps), c') :=
    hps.run_rounds hc hstop (c.stream.size - c.stream.position + 1)
      (by change c.stream.rest.length < _; omega) [] hkeys
  obtain ⟨c'', hfinish, herrors⟩ := run_finish_of_nil hends
  have hcell : (cell .cell).run (.of (.of ts)) = (.ok (r.setParameters (.of ps)), c'') := by
    rw [cell_eq_heading, run_bind_of_ok hhead, run_bind_of_ok hparameters, run_bind_of_ok hfinish]
    rfl
  have hrecord :
      (record .cell).run (.of (.of ts)) = (.ok (.cell (r.setParameters (.of ps))), c'') :=
    (run_bind_of_ok hcell).trans rfl
  have hsolid : (Cursor.of (.of ts)).stream.onlyLayoutLeft = false :=
    TokenStream.onlyLayoutLeft_of (exists_token_of_heading hhead)
  exact Cursor.parse_eq_ok_iff.mpr ⟨hsolid, c'', hrecord, herrors.trans hc'⟩

/-! ## Cells that mirror each other -/

/-- Two lists of parameters that are the same up to layout. -/
abbrev SameParameters (ps qs : List Parameter) : Prop :=
  List.Forall₂ (fun p q ↦ p.bare = q.bare) ps qs

theorem sameParameters_iff {ps qs : List Parameter} :
    SameParameters ps qs ↔ ps.map Parameter.bare = qs.map Parameter.bare := by
  rw [SameParameters, ← List.forall₂_eq_eq_eq, List.forall₂_map_left_iff,
    List.forall₂_map_right_iff]

theorem SameParameters.keys_eq {ps qs : List Parameter} (h : SameParameters ps qs) :
    ps.map Parameter.key = qs.map Parameter.key := by
  induction h with
  | nil => rfl
  | cons hbare _ ih => rw [List.map_cons, List.map_cons, Parameter.key_eq_of_bare hbare, ih]

theorem SameParameters.mapLast_closed {ps qs : List Parameter} (h : SameParameters ps qs) :
    SameParameters ps (Parameters.mapLast Parameter.closed qs) := by
  induction h with
  | nil => exact .nil
  | @cons p q ps qs hbare hrest ih =>
    cases qs with
    | nil =>
      cases hrest
      exact .cons (hbare.trans q.bare_closed.symm) .nil
    | cons q' qs => exact .cons hbare ih

theorem SameParameters.closeAll {ps qs : List Parameter} (h : SameParameters ps qs) :
    SameParameters (Parameters.closeAll ps) (Parameters.closeAll qs) := by
  induction h with
  | nil => exact .nil
  | @cons p q ps qs hbare hrest ih =>
    cases hrest with
    | nil => exact .cons hbare .nil
    | cons hbare' hrest' =>
      exact .cons (p.bare_closed.trans (hbare.trans q.bare_closed.symm)) ih

theorem sameParameters_closeAll (ps : List Parameter) :
    SameParameters ps (Parameters.closeAll ps) := by
  fun_induction Parameters.closeAll ps with
  | case1 => exact .nil
  | case2 p => exact .cons rfl .nil
  | case3 p ps hne ih => exact .cons p.bare_closed.symm ih

variable {s : Seam} {c₁ : Cursor}

/-- The same tokens are read as the same parameters, to their end. -/
theorem ParameterRun.exists_alike (h : ParameterRun c ps c') (hc : c.errors = [])
    (hends : c'.rest = []) {d : Cursor} (hd : d.errors = []) (hsettled : d.IsSettled)
    (hdepth : d.depth = c.depth) (halike : List.Forall₂ Token.Alike c.rest d.rest) :
    ∃ qs d', ParameterRun d qs d' ∧ SameParameters ps qs ∧ d'.rest = [] := by
  have hstart : Seam.ends.Tracks c d := ⟨⟨hdepth.symm, hd⟩, Seam.like_ends halike⟩
  obtain ⟨qs, d', hqs, hbare, htracks⟩ := h.mirrored hc hstart (Nat.zero_le _)
  refine ⟨qs, d', hqs, hbare, ?_⟩
  obtain ⟨ms, ns, ls, ks, hsplit⟩ := htracks.like
  have hleft := hsplit.left_eq
  rw [hends] at hleft
  obtain rfl : ms = [] := (List.append_eq_nil_iff.mp hleft.symm).1
  obtain rfl : ns = [] := by simpa using hsplit.alike
  have hright : d'.rest = ks ++ [] := hsplit.right_eq
  cases ks with
  | nil => exact hright
  | cons k ks =>
    have hsolid := hqs.isSettled hsettled k (by rw [hright]; rfl)
    rw [hsplit.right_layout k List.mem_cons_self] at hsolid
    cases hsolid

namespace HasRead

/-- Up to a seam two cells are read alike. -/
theorem mirrored (h : HasRead ts r ps c) (hlike : s.Like ts us) (hleft : c.rest = s.left) :
    ∃ r' qs d, HasRead us r' qs d ∧ r.SameHeading r' ∧ SameParameters ps qs ∧ d.rest = s.right ∧
      d.depth = c.depth := by
  obtain ⟨c₀, hhead, hps⟩ := h.exists_place
  have hstart : s.Tracks (.of (.of ts)) (.of (.of us)) := ⟨⟨rfl, rfl⟩, hlike⟩
  obtain ⟨r', d₀, hhead', hsame, htracks, -⟩ := Mirrors.heading hstart r c₀ hhead
  obtain ⟨qs, d, hqs, hbare, htracks'⟩ :=
    hps.mirrored (no_errors_of_heading rfl hhead) htracks (by rw [hleft])
  have hread : HasRead us r' qs d := ⟨d₀, hhead', hqs⟩
  refine ⟨r', qs, d, hread, hsame, hbare, ?_, htracks'.depth_eq.symm⟩
  obtain ⟨ms, ns, ls, ks, hsplit⟩ := htracks'.like
  have hlength := congrArg List.length (hsplit.left_eq.symm.trans hleft)
  simp only [List.length_append] at hlength
  obtain rfl : ms = [] := List.eq_nil_of_length_eq_zero (by omega)
  obtain rfl : ns = [] := by simpa using hsplit.alike
  have hright : d.rest = ks ++ s.right := hsplit.right_eq
  cases ks with
  | nil => exact hright
  | cons k ks =>
    have hsolid := hread.isSettled k (by rw [hright]; rfl)
    rw [hsplit.right_layout k List.mem_cons_self] at hsolid
    cases hsolid

/-- A cell whose right part starts anew behind the seam. -/
theorem parse_spliced (h : HasRead ts r ps c) (hlike : s.Like ts us) (hleft : c.rest = s.left)
    (hright : ∀ d : Cursor, d.rest = s.right → d.IsSettled → d.errors = [] → d.depth = c.depth →
      ∃ qs' d', ParameterRun d qs' d' ∧ SameParameters qs qs' ∧ d'.rest = [])
    (hkeys : ((ps ++ qs).map Parameter.key).Nodup) : ∃ r' ps', SameParameters (ps ++ qs) ps' ∧
      r.SameHeading r' ∧
      (Cursor.of (.of us)).parse .cell = .ok (.cell (r'.setParameters (.of ps'))) := by
  obtain ⟨r', ps', d, hd, hsame, hps, hdright, hdepth⟩ := h.mirrored hlike hleft
  obtain ⟨qs', d', hqs, hbare, hnil⟩ := hright d hdright hd.isSettled hd.no_errors hdepth
  have hall : SameParameters (ps ++ qs) (ps' ++ qs') := List.rel_append hps hbare
  exact ⟨r', _, hall, hsame, (hd.append hqs).parse_eq hnil (hall.keys_eq ▸ hkeys)⟩

end HasRead

end Production

/-! ## Cards that are cells -/

namespace Card

variable {card : Card} {c : CellRecord}

/-- A card is a cell if it stands in the block of cells, asks for no other file and has the tokens
of one. -/
theorem parse_eq_cell_iff : card.parse = .ok (.cell c) ↔ card.block = .cell ∧ card.isRead = false ∧
    ∃ ts, tokenize .cell card.text = .ok ts ∧ (Cursor.of (.of ts)).parse .cell = .ok (.cell c) := by
  have hparse : card.parse = .ok (.cell c) ↔
      (Grammar.ofCard card).parse card.text = .ok (.cell c) := by
    unfold Card.parse
    dsimp only
    cases (Grammar.ofCard card).parse card.text with
    | ok r => rfl
    | error errors =>
      dsimp only
      split_ifs <;> simp
  have hcell : Grammar.cell.parse card.text = .ok (.cell c) ↔
      ∃ ts, tokenize .cell card.text = .ok ts ∧
      (Cursor.of (.of ts)).parse .cell = .ok (.cell c) := by
    have hmode : Grammar.cell.mode = .cell := rfl
    unfold Grammar.parse
    rw [hmode]
    cases tokenize .cell card.text <;> simp
  rw [hparse]
  constructor
  · intro h
    have hkind := Option.some.inj (Grammar.grammarKind?_of_parse h)
    have hread : card.isRead = false := by
      rw [← Bool.not_eq_true]
      intro hread
      rw [Grammar.ofCard, if_pos hread] at hkind
      cases hkind
    rw [Grammar.ofCard, hread, if_neg Bool.false_ne_true] at h hkind
    cases hblock : card.block with
    | cell =>
      rw [hblock] at h
      exact ⟨rfl, hread, hcell.mp h⟩
    | surface =>
      rw [hblock] at hkind
      cases hkind
    | data =>
      rw [hblock] at hkind
      cases hkind
  · rintro ⟨hblock, hread, h⟩
    rw [Grammar.ofCard, hread, if_neg Bool.false_ne_true, hblock]
    exact hcell.mpr h

/-- What can be computed from the cell that a card is holds of it. -/
theorem exists_cell (card : Card) (p : CellRecord → Bool)
    (h : (card.parse.toOption.any fun r ↦ r.cell?.any p) = true) :
    ∃ c, card.parse = .ok (.cell c) ∧ p c = true := by
  obtain ⟨r, hr, hp⟩ := Except.exists_of_any h
  cases r with
  | cell c => exact ⟨c, hr, hp⟩
  | surface | data | read | verbatim => cases hp

end Card

end TransportDeck
