import TransportDeck.Proofs.Grammar.Lists
import TransportDeck.Proofs.Grammar.MirroredLists
import TransportDeck.Proofs.Node.ParameterIndex

/-!
# Runs of parameters

The parameters of a record are read one behind the other, as long as no key comes twice.  In front
of a seam they are the same up to layout.
-/

namespace TransportDeck

/-! ## Parameters with distinct keys -/

namespace Parameters

/-- Parameters that have been read one behind the other. -/
def of (raws : List Parameter) : Parameters := ⟨closeAll raws, (raws.map Parameter.key).zipIdx⟩

theorem length_closeAll (ps : List Parameter) : (closeAll ps).length = ps.length := by
  induction ps with
  | nil => rfl
  | cons p ps ih =>
    cases ps with
    | nil => rfl
    | cons q qs => exact congrArg (· + 1) ih

variable {raws : List Parameter} {p : Parameter}

theorem isSome_place?_of (raws : List Parameter) (key : String) :
    ((of raws).place? key).isSome = decide (key ∈ raws.map Parameter.key) :=
  isSome_lookup_zipIdx _ _ _

/-- A parameter with a new key goes to the end. -/
theorem insert_of (h : p.key ∉ raws.map Parameter.key) :
    (of raws).insert p = .ok (of (raws ++ [p])) := by
  have hnew : ((of raws).place? p.key).isSome = false := by simp [isSome_place?_of, h]
  rw [insert, hnew, of, of, closeAll_concat, List.map_append, List.zipIdx_append, length_closeAll]
  simp

theorem insert_of_mem (h : p.key ∈ raws.map Parameter.key) :
    (of raws).insert p = .error ⟨p.key⟩ := by
  have hthere : ((of raws).place? p.key).isSome = true := by simp [isSome_place?_of, h]
  rw [insert, hthere]
  rfl

end Parameters

/-! ## The end of a record as a seam -/

namespace Seam

open Production

theorem stops_nil : Stops [] := by simp [Stops]

/-- The seam where both records end. -/
def ends : Seam where
  left := []
  right := []
  left_stops := stops_nil
  right_stops := stops_nil

theorem isApart_nil : IsApart [] := by simp [IsApart]

/-- Records with the same tokens. -/
theorem like_ends {ts us : List Token} (h : List.Forall₂ Token.Alike ts us) : ends.Like ts us :=
  ⟨ts, us, [], [], by
    simp [ends], by simp [ends], h, by simp, by simp, .inr ⟨isApart_nil, isApart_nil⟩⟩

theorem tracks_ends {c : Cursor} (h : c.errors = []) : ends.Tracks c c :=
  ⟨⟨rfl, h⟩, like_ends (List.forall₂_same.mpr fun _ _ ↦ ⟨rfl, rfl⟩)⟩

/-- A parameter starts in front of the seam if more is left than behind it. -/
theorem Like.inside_of_lt {s : Seam} {ts us : List Token} (h : s.Like ts us)
    (hopen : opensParameter ts = true) (hlt : s.left.length < ts.length) : s.Inside ts us := by
  refine h.inside_or_atEnd.resolve_right ?_
  rintro ⟨ls, ks, hsplit⟩
  have hleft := hsplit.left_eq
  rw [List.nil_append] at hleft
  cases ls with
  | nil =>
    rw [hleft, List.nil_append] at hlt
    exact lt_irrefl _ hlt
  | cons l ls =>
    have hlayout := hsplit.left_layout l List.mem_cons_self
    obtain ⟨k, text, p⟩ := l
    rw [hleft] at hopen
    change k.isLayout = true at hlayout
    cases k <;> first | (cases hlayout; done) | cases hopen

end Seam

namespace Production

open Seam

variable {s : Seam} {c c' c'' d : Cursor} {p : Parameter} {ps qs : List Parameter}

/-! ## Runs -/

/-- Parameters that are read one behind the other. -/
inductive ParameterRun : Cursor → List Parameter → Cursor → Prop where
  | stop {c : Cursor} : ParameterRun c [] c
  | step {c c' c'' : Cursor} {p : Parameter} {ps : List Parameter}
      (starts : opensParameter c.rest = true) (reads : (parameter .cell).run c = (.ok p, c'))
        (rest : ParameterRun c' ps c'') :
      ParameterRun c (p :: ps) c''

/-- A parameter has at least a name, and reports nothing. -/
theorem passes_parameter (hc : c.errors = []) (hopen : opensParameter c.rest = true)
    (h : (parameter .cell).run c = (.ok p, c')) : c'.errors = [] ∧ Passes 1 c c' := by
  have hpos : (ends : Seam).left.length < c.rest.length := by
    cases hrest : c.rest with
    | nil =>
      rw [hrest] at hopen
      cases hopen
    | cons t ts => exact Nat.succ_pos _
  have htracks := tracks_ends hc
  obtain ⟨q, c₁, hq, -, htracks', -, hpast⟩ :=
    Mirrors.parameter htracks (htracks.like.inside_of_lt hopen hpos) hopen p c' h
  obtain ⟨-, rfl⟩ := Prod.mk.inj (h.symm.trans hq)
  exact ⟨htracks'.no_errors, hpast⟩

namespace ParameterRun

theorem append {c c' c'' : Cursor} (h : ParameterRun c ps c') (h' : ParameterRun c' qs c'') :
    ParameterRun c (ps ++ qs) c'' := by
  induction h with
  | stop => exact h'
  | step starts reads _ ih => exact .step starts reads (ih h')

theorem exists_of_append (h : ParameterRun c (ps ++ qs) c'') :
    ∃ c', ParameterRun c ps c' ∧ ParameterRun c' qs c'' := by
  induction ps generalizing c with
  | nil => exact ⟨c, .stop, h⟩
  | cons p ps ih =>
    cases h with
    | step starts reads rest =>
      obtain ⟨c', hps, hqs⟩ := ih rest
      exact ⟨c', .step starts reads hps, hqs⟩

theorem no_errors (h : ParameterRun c ps c') (hc : c.errors = []) : c'.errors = [] := by
  induction h with
  | stop => exact hc
  | step starts reads _ ih => exact ih (passes_parameter hc starts reads).1

theorem passes (h : ParameterRun c ps c') (hc : c.errors = []) : Passes 0 c c' := by
  induction h with
  | stop => exact .refl
  | step starts reads _ ih =>
    obtain ⟨hc', hpast⟩ := passes_parameter hc starts reads
    exact (hpast.weaken (Nat.zero_le 1)).trans (ih hc')

/-- In front of a seam the same parameters are read on both sides. -/
theorem mirrored (h : ParameterRun c ps c') (hc : c.errors = []) (htracks : s.Tracks c d)
    (hleft : s.left.length ≤ c'.rest.length) : ∃ qs d', ParameterRun d qs d' ∧
      List.Forall₂ (fun p q ↦ p.bare = q.bare) ps qs ∧ s.Tracks c' d' := by
  induction h generalizing d with
  | stop => exact ⟨[], d, .stop, .nil, htracks⟩
  | step starts reads rest ih =>
    obtain ⟨hc', hpast⟩ := passes_parameter hc starts reads
    have := hpast.length_le
    have := (rest.passes hc').length_le
    have hinside := htracks.like.inside_of_lt starts (by omega)
    obtain ⟨q, d', hq, hbare, htracks', -⟩ := Mirrors.parameter htracks hinside starts _ _ reads
    obtain ⟨qs, d'', hqs, hbares, htracks''⟩ := ih hc' htracks' hleft
    exact ⟨q :: qs, d'', .step (hinside.opensParameter_eq ▸ starts) hq hqs,
      .cons hbare hbares, htracks''⟩

end ParameterRun

/-! ## Loops -/

theorem run_startsParameter (c : Cursor) :
    (startsParameter .cell).run c = (.ok (opensParameter c.rest), c) :=
  congrArg (fun b ↦ (Except.ok b, c)) (parameterAhead_cell c.stream)

theorem run_parameter?_of_stop (h : opensParameter c.rest = false) (ps : Parameters) :
    (parameter? .cell ps).run c = (.ok none, c) := by
  unfold parameter?
  rw [run_bind_of_ok (run_startsParameter c), h]
  rfl

/-- A parameter that starts is read, and then put to the others. -/
theorem run_parameter? (hopen : opensParameter c.rest = true) (ps : Parameters) :
    (parameter? .cell ps).run c = (parameter .cell >>= fun p ↦ match ps.insert p with
      | .ok ps => Pure.pure (some ps)
      | .error duplicate => do
        report (.duplicateParameter duplicate.key c.stream.currentSpan)
        return some ps : Production (Option Parameters)).run c := by
  unfold parameter?
  rw [run_bind_of_ok (run_startsParameter c), hopen]
  rfl

/-- The loop reads a run of parameters with distinct keys. -/
theorem ParameterRun.run_rounds (h : ParameterRun c ps c') (hc : c.errors = [])
    (hstop : opensParameter c'.rest = false) (n : Nat) (hn : c.rest.length < n)
    (qs : List Parameter) (hkeys : ((qs ++ ps).map Parameter.key).Nodup) :
    (rounds (parameter? .cell) n (.of qs)).run c = (.ok (.of (qs ++ ps)), c') := by
  induction h generalizing n qs with
  | stop =>
    obtain ⟨n, rfl⟩ := Nat.exists_eq_succ_of_ne_zero (Nat.ne_zero_of_lt hn)
    refine (run_bind_of_ok (run_parameter?_of_stop hstop _)).trans ?_
    rw [List.append_nil]
    rfl
  | @step c c' c'' p ps starts reads rest ih =>
    obtain ⟨n, rfl⟩ := Nat.exists_eq_succ_of_ne_zero (Nat.ne_zero_of_lt hn)
    obtain ⟨hc', hpast⟩ := passes_parameter hc starts reads
    have := hpast.length_le
    have hsplit : qs ++ p :: ps = qs ++ [p] ++ ps := by simp
    rw [hsplit] at hkeys ⊢
    have hnew : p.key ∉ qs.map Parameter.key := by
      rw [List.map_append, List.map_append] at hkeys
      have hdisjoint := List.disjoint_of_nodup_append (List.Nodup.of_append_left hkeys)
      exact fun hmem ↦ hdisjoint hmem (by simp)
    have hfirst : (parameter? .cell (.of qs)).run c = (.ok (some (.of (qs ++ [p]))), c') := by
      rw [run_parameter? starts, run_bind_of_ok reads, Parameters.insert_of hnew]
      rfl
    exact (run_bind_of_ok hfirst).trans (ih hc' hstop n (by omega) _ hkeys)

/-- If nothing is reported, the loop has read a run of parameters with distinct keys. -/
theorem parameterRun_of_rounds (n : Nat) (hn : c.rest.length < n) (hlex : c.IsLexed)
    (hc : c.errors = []) (hc' : c'.errors = []) (qs : List Parameter)
    (hkeys : (qs.map Parameter.key).Nodup) {ps : Parameters}
    (h : (Production.rounds (parameter? .cell) n (.of qs)).run c = (.ok ps, c')) :
    ∃ raws, ParameterRun c raws c' ∧ opensParameter c'.rest = false ∧
      ((qs ++ raws).map Parameter.key).Nodup ∧ ps = .of (qs ++ raws) := by
  induction n generalizing c qs with
  | zero => omega
  | succ n ih =>
    obtain ⟨o, c₁, hround, hrest⟩ := run_bind_ok h
    by_cases hopen : opensParameter c.rest = true
    · rw [run_parameter? hopen] at hround
      obtain ⟨p, c₂, hp, hinsert⟩ := run_bind_ok hround
      obtain ⟨hc₂, hpast⟩ := passes_parameter hc hopen hp
      obtain ⟨-, ts, hts, -⟩ := Reads.parameter .cell hlex p c₂ hp
      have hlex₂ := hlex.of_append hts
      have := hpast.length_le
      by_cases hmem : p.key ∈ qs.map Parameter.key
      · rw [Parameters.insert_of_mem hmem] at hinsert
        obtain ⟨_, c₃, ⟨⟩, ⟨⟩⟩ := run_bind_ok hinsert
        -- What follows does not take the report back.
        let reported := c₂.report (.duplicateParameter p.key c.stream.currentSpan)
        have hreported : reported.IsLexed := hlex₂
        have hrounds : ReadsOrReports (rounds (parameter? .cell) n (.of qs)) reported _ :=
          .rounds (I := fun ps ts ↦ ps.ReadAs (textOf ts)) (fun ps c' ↦
            (ReadsOrReports.parameter? .cell ps c').mono fun o us h ↦ by cases o <;> exact h) n _ _
        obtain ⟨us, -, herrors⟩ := hrounds hreported ps c' hrest
        rcases herrors with ⟨herrors, -⟩ | herrors
        · rw [hc'] at herrors
          simp [reported, Cursor.report] at herrors
        · exact absurd hc' herrors
      · rw [Parameters.insert_of hmem] at hinsert
        cases hinsert
        have hkeys' : ((qs ++ [p]).map Parameter.key).Nodup := by
          rw [List.map_append, List.map_singleton]
          exact List.Nodup.append hkeys (List.nodup_singleton _) (by simpa using hmem)
        obtain ⟨raws, hraws, hstop, hdistinct, rfl⟩ := ih (by omega) hlex₂ hc₂ _ hkeys' hrest
        refine ⟨p :: raws, .step hopen hp hraws, hstop, ?_⟩
        rw [List.append_assoc] at hdistinct ⊢
        exact ⟨hdistinct, rfl⟩
    · rw [Bool.not_eq_true] at hopen
      rw [run_parameter?_of_stop hopen] at hround
      cases hround
      cases hrest
      exact ⟨[], .stop, hopen, by rwa [List.append_nil], by rw [List.append_nil]⟩

end Production

/-!
## Lists of parameters

What is read as a list of parameters is the parameters one behind the other, each from its own
tokens.  Their keys are distinct; a key that comes twice is reported.
-/

/-- Parameters with distinct keys that have been read one behind the other, each related to its own
tokens. -/
def Parameters.Lists (Q : Parameter → List Token → Prop) (ps : Parameters) (ts : List Token) :
    Prop :=
  ∃ raws tss, ps = .of raws ∧
    (raws.map Parameter.key).Nodup ∧ ts = tss.flatten ∧ List.Forall₂ Q raws tss

namespace Parameters.Lists

variable {Q : Parameter → List Token → Prop} {ps ps' : Parameters}
  {p : Parameter} {ts us : List Token}

theorem empty : Lists Q .empty [] := ⟨[], [], rfl, List.nodup_nil, rfl, .nil⟩

theorem insert (h : ps.Lists Q ts) (hp : Q p us) (hinsert : ps.insert p = .ok ps') :
    ps'.Lists Q (ts ++ us) := by
  obtain ⟨raws, tss, rfl, hkeys, rfl, hraws⟩ := h
  have hnew : p.key ∉ raws.map Parameter.key := by
    intro hmem
    rw [insert_of_mem hmem] at hinsert
    cases hinsert
  rw [insert_of hnew] at hinsert
  obtain rfl := Except.ok.inj hinsert
  refine ⟨raws ++ [p], tss ++ [us], rfl, ?_, by simp, List.rel_append hraws (.cons hp .nil)⟩
  rw [List.map_append, List.map_singleton]
  exact hkeys.append (List.nodup_singleton _) (by simpa using hnew)

end Parameters.Lists

namespace Production

variable {g : Grammar} {Q : Parameter → List Token → Prop}

theorem lists_parameter? (h : ∀ c, Reads (parameter g) c Q) (ps : Parameters) (c : Cursor) :
    ReadsOrReports (parameter? g ps) c fun o us ↦ ∀ ts, ps.Lists Q ts → match o with
      | some ps' => ps'.Lists Q (ts ++ us)
      | none => us = [] := by
  refine .get ?_
  split_ifs
  · refine .get ((h c).bindReports fun p us c' _ _ hp ↦ ?_)
    split
    · next ps' hinsert =>
      refine (Reads.pure fun ts hps ↦ ?_).orReports
      rw [List.append_nil]
      exact hps.insert hp hinsert
    · exact .report fun c'' _ ↦ .pure rfl
  · exact (Reads.pure fun _ _ ↦ rfl).orReports

/-- The parameters of a record are read one behind the other. -/
theorem lists_parameters (h : ∀ c, Reads (parameter g) c Q) (c : Cursor) :
    ReadsOrReports (parameters g) c (Parameters.Lists Q) := by
  unfold parameters
  split_ifs
  · refine .loop (I := Parameters.Lists Q)
      (fun ps c' ↦ (lists_parameter? h ps c').mono fun o us ho ↦ ?_) .empty
    cases o <;> exact ho
  · exact (Reads.pure .empty).orReports

end Production

end TransportDeck
