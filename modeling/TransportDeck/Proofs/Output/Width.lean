import TransportDeck.Proofs.Deck.Reread

/-!
# The width of written lines

A record that is wrapped without a report has lines whose code fits: what stands before a comment
ends within the width.  Reading looks at where the comment starts instead.  No code is ever cut off
such a line, but a comment is cut that starts behind the width.
-/

namespace TransportDeck

open Text

/-! ## Comments and code of a line -/

namespace Line

theorem isComment_append_of_allBlank {cs bs : List Char} (h : allBlank bs = true) :
    isComment (String.ofList (cs ++ bs)) = isComment (String.ofList cs) := by
  cases hcs : allBlank cs with
  | false =>
    exact (Shortens.isComment_eq ⟨hcs, bs, rfl, .inl fun c hc ↦
      List.all_eq_true.mp h c (List.mem_of_mem_head? hc)⟩).symm
  | true =>
    have hnil {ds : List Char} (hds : allBlank ds = true) : ds.dropWhile Text.isBlank = [] :=
      List.dropWhile_eq_nil_iff.mpr (List.all_eq_true.mp hds)
    have hboth : allBlank (cs ++ bs) = true := by rw [allBlank_append, hcs, h]; rfl
    simp only [isComment, String.toList_ofList, hnil hboth, hnil hcs, Bool.and_false]

end Line

namespace Wrap

variable {width : Nat} {cs bs : List Char}

theorem codePart_append_of_allBlank (h : allBlank bs = true) :
    codePart (cs ++ bs) = codePart cs := by
  have hbs : bs.takeWhile (· != '$') = bs := by
    refine List.takeWhile_eq_self_iff.mpr fun c hc ↦ bne_iff_ne.mpr ?_
    rintro rfl
    exact absurd (List.all_eq_true.mp h _ hc) (by decide)
  rw [codePart, codePart, List.takeWhile_append]
  split_ifs with hwhole
  · rw [hbs, (List.takeWhile_prefix _).eq_of_length hwhole, trimEnd_append_of_allBlank h]
  · rfl

theorem codePart_trimEnd (cs : List Char) : codePart (trimEnd cs) = codePart cs := by
  obtain ⟨bs, hbs, hblank⟩ := exists_eq_trimEnd_append cs
  conv_rhs => rw [hbs, codePart_append_of_allBlank hblank]

theorem takeWhile_of_not_mem (h : '$' ∉ cs) : cs.takeWhile (· != '$') = cs := by
  refine List.takeWhile_eq_self_iff.mpr fun c hc ↦ bne_iff_ne.mpr ?_
  rintro rfl
  exact h hc

theorem codePart_of_not_mem (h : '$' ∉ cs) : codePart cs = trimEnd cs := by
  rw [codePart, takeWhile_of_not_mem h]

theorem length_codePart_le (cs : List Char) : (codePart cs).length ≤ cs.length :=
  ((trimEnd_isPrefix _).trans (List.takeWhile_prefix _)).length_le

/-- Code that fits is not cut where the comment behind it is. -/
theorem codePart_take (hfits : fits width (codePart cs) = true) (h : '$' ∉ cs.take width)
    (hlong : width ≤ cs.length) : codePart (cs.take width) = codePart cs := by
  have htake := takeWhile_of_not_mem h
  have hlength : (cs.take width).length = width := by rw [List.length_take, min_eq_left hlong]
  have hcode : codePart cs = trimEnd (cs.take width ++ (cs.drop width).takeWhile (· != '$')) := by
    conv_lhs => rw [codePart, ← List.take_append_drop width cs]
    rw [List.takeWhile_append, htake, if_pos rfl]
  rw [hcode, trimEnd_append_of_length_le, codePart, htake]
  rw [fits, decide_eq_true_eq, hcode] at hfits
  rwa [hlength]

/-! ## The pieces of a wrapped line -/

theorem breakFrom?_lt {seen : Bool} {n i : Nat} (h : breakFrom? seen n cs = some i) : i < n := by
  induction cs generalizing seen n i with
  | nil => cases n <;> cases h
  | cons c cs ih =>
    cases n with
    | zero => cases h
    | succ n =>
      rw [breakFrom?] at h
      cases hrest : breakFrom? (seen || !isBlank c) n cs with
      | some j =>
        rw [hrest] at h
        dsimp only at h
        split_ifs at h
        obtain rfl := Option.some.inj h
        exact Nat.succ_lt_succ (ih hrest)
      | none =>
        rw [hrest] at h
        split_ifs at h
        obtain rfl := Option.some.inj h
        exact Nat.succ_pos n

theorem cutLine_of_break {i : Nat} (hfits : ¬fits width (codePart cs) = true)
    (hbreak : break? width cs = some i) : cutLine width cs =
      (trimEnd (cs.take i) :: (cutLine width (indent ++ trimStart (cs.drop i))).1,
        (cutLine width (indent ++ trimStart (cs.drop i))).2) := by
  rw [cutLine, if_neg hfits]
  split
  · next hnone =>
    rw [hnone] at hbreak
    cases hbreak
  · next j hj =>
    obtain rfl := Option.some.inj (hj.symm.trans hbreak)
    rfl

theorem cutLine_of_no_break (hfits : ¬fits width (codePart cs) = true)
    (hbreak : break? width cs = none) : cutLine width cs = ([cs], [narrowWarning width cs]) := by
  rw [cutLine, if_neg hfits]
  split
  · rfl
  · next i hi =>
    rw [hi] at hbreak
    cases hbreak

/-- What a line is cut into has code that fits, unless there is a report. -/
theorem fits_of_mem_cutLine (h : (cutLine width cs).2 = []) :
    ∀ piece ∈ (cutLine width cs).1, fits width (codePart piece) = true := by
  induction cs using cutLine.induct width with
  | case1 cs hfits =>
    rw [cutLine, if_pos hfits]
    simpa using hfits
  | case2 cs hfits hbreak =>
    rw [cutLine_of_no_break hfits hbreak] at h
    cases h
  | case3 cs hfits i hbreak ih =>
    rw [cutLine_of_break hfits hbreak] at h ⊢
    refine List.forall_mem_cons.mpr ⟨?_, ih h⟩
    have hlength := (length_codePart_le (trimEnd (cs.take i))).trans
      ((trimEnd_isPrefix _).length_le.trans (List.length_take_le _ _))
    have hi : i < width + 1 := breakFrom?_lt hbreak
    rw [fits, decide_eq_true_eq]
    omega

theorem cutLine_ne_nil (width : Nat) (cs : List Char) : (cutLine width cs).1 ≠ [] := by
  rw [cutLine]
  split_ifs
  · exact List.cons_ne_nil _ _
  · split <;> exact List.cons_ne_nil _ _

theorem not_mem_of_mem_cutLine (h : '\n' ∉ cs) : ∀ piece ∈ (cutLine width cs).1, '\n' ∉ piece := by
  induction cs using cutLine.induct width with
  | case1 cs hfits =>
    rw [cutLine, if_pos hfits]
    simpa using h
  | case2 cs hfits hbreak =>
    rw [cutLine_of_no_break hfits hbreak]
    simpa using h
  | case3 cs hfits i hbreak ih =>
    rw [cutLine_of_break hfits hbreak]
    refine List.forall_mem_cons.mpr ⟨fun hmem ↦ ?_, ih fun hmem ↦ ?_⟩
    · exact h (((trimEnd_isPrefix _).trans (List.take_prefix _ _)).subset hmem)
    · rcases List.mem_append.mp hmem with hmem | hmem
      · cases List.eq_of_mem_replicate hmem
      · exact h (((List.dropWhile_suffix _).trans (List.drop_suffix _ _)).subset hmem)

theorem wrapLine_ne_nil (width : Nat) (line : List Char) : (wrapLine width line).1 ≠ [] := by
  unfold wrapLine
  split_ifs
  · exact List.cons_ne_nil _ _
  · exact cutLine_ne_nil width line

theorem not_mem_of_mem_wrapLine {line : List Char} (h : '\n' ∉ line) :
    ∀ piece ∈ (wrapLine width line).1, '\n' ∉ piece := by
  unfold wrapLine
  split_ifs
  · simpa using h
  · exact not_mem_of_mem_cutLine h

/-- Of a line without a report nothing but a comment is too wide. -/
theorem fits_of_mem_wrapLine {line : List Char} (h : (wrapLine width line).2 = []) :
    ∀ piece ∈ (wrapLine width line).1,
      Line.isComment (String.ofList piece) = true ∨ fits width (codePart piece) = true := by
  unfold wrapLine at h ⊢
  split_ifs at h ⊢ with hfits
  · simp only [List.mem_singleton, forall_eq]
    rw [Bool.or_eq_true] at hfits
    refine hfits.symm.imp_right fun hlength ↦ ?_
    rw [fits, decide_eq_true_eq] at hlength ⊢
    exact (length_codePart_le line).trans hlength
  · exact fun piece hpiece ↦ .inr (fits_of_mem_cutLine h piece hpiece)

/-! ## The lines of a wrapped record -/

/-- The lines of a wrapped record are the pieces of its lines. -/
theorem splitWhere_wrap (width : Nat) (record : String) :
    splitWhere (· == '\n') (wrap width record).text.toList =
      (splitWhere (· == '\n') record.toList).flatMap fun line ↦ (wrapLine width line).1 := by
  obtain ⟨line, rest, hlines⟩ :=
    List.exists_cons_of_ne_nil (splitWhere_ne_nil (· == '\n') record.toList)
  rw [wrap, splitWhere_intercalate]
  · simp only [List.map_map, List.flatMap_map]
    exact List.map_id'' (fun _ ↦ String.toList_ofList) _
  · rw [hlines]
    simp [wrapLine_ne_nil]
  · intro l hl
    obtain ⟨piece, hpiece, rfl⟩ := List.mem_map.mp hl
    rw [List.flatMap_map] at hpiece
    obtain ⟨line, hline, hpiece⟩ := List.mem_flatMap.mp hpiece
    rw [String.toList_ofList]
    exact not_mem_of_mem_wrapLine (not_mem_of_mem_splitWhere hline) piece hpiece

/-- Every line of a record that was wrapped without a report is a comment or has code that fits. -/
theorem isComment_or_fits_of_mem_splitWhere {record : String}
    (h : (wrap width record).warnings = []) {piece : List Char}
    (hpiece : piece ∈ splitWhere (· == '\n') (wrap width record).text.toList) :
    Line.isComment (String.ofList piece) = true ∨ fits width (codePart piece) = true := by
  rw [splitWhere_wrap] at hpiece
  obtain ⟨source, hsource, hpiece⟩ := List.mem_flatMap.mp hpiece
  have hquiet : (wrapLine width source).2 = [] := by
    simp only [wrap, List.flatMap_map] at h
    exact List.flatMap_eq_nil_iff.mp h source hsource
  exact fits_of_mem_wrapLine hquiet _ hpiece

theorem isComment_or_fits {record : String} (h : (wrap width record).warnings = [])
    {line : List Char} (hline : line ∈ lines (wrap width record).text.toList) :
    Line.isComment (String.ofList line) = true ∨ fits width (codePart line) = true := by
  obtain ⟨piece, hpiece, bs, rfl, hblank⟩ := exists_piece_of_mem_closeLines hline
  have hfits := isComment_or_fits_of_mem_splitWhere h hpiece
  rwa [Line.isComment_append_of_allBlank hblank, codePart_append_of_allBlank hblank] at hfits

end Wrap

/-! ## Reading wrapped lines -/

namespace Line

variable {width : Nat} {line : String}

/-- No code is cut off a line whose code fits. -/
theorem codePart_keep
    (h : isComment line = true ∨ Wrap.fits width (Wrap.codePart line.toList) = true) :
    Wrap.codePart (keep width line).toList = Wrap.codePart line.toList := by
  unfold keep
  dsimp only
  split_ifs with hkeep
  · rw [String.toList_ofList, Wrap.codePart_trimEnd]
  · simp only [Bool.or_eq_true, decide_eq_true_eq, not_or, not_le, List.contains_iff_mem] at hkeep
    obtain ⟨⟨hlong, hcomment⟩, hdollar⟩ := hkeep
    have hfits := h.resolve_left hcomment
    rw [← Wrap.codePart_trimEnd] at hfits
    rw [String.toList_ofList, Wrap.codePart_trimEnd, Wrap.codePart_take hfits hdollar hlong.le,
      Wrap.codePart_trimEnd]

/-- A line whose code fits is kept exactly if it is a comment or its comment starts within the
width. -/
theorem keeps_iff_of_fits (h : isComment line = true ∨ Wrap.fits width (Wrap.codePart line.toList) =
    true) :
    ((trimEnd line.toList).length ≤ width ∨ isComment line = true ∨
      '$' ∈ (trimEnd line.toList).take width) ↔
      (isComment line = false → '$' ∈ line.toList → '$' ∈ line.toList.take width) := by
  rw [mem_take_trimEnd_iff (by decide)]
  constructor
  · rintro (hlength | hcomment | hdollar) hcode hmem
    · rwa [← mem_take_trimEnd_iff (by decide), List.take_of_length_le hlength,
        mem_trimEnd_iff (by decide)]
    · rw [hcomment] at hcode
      cases hcode
    · exact hdollar
  · intro hstarts
    cases hcomment : isComment line with
    | true => exact .inr (.inl rfl)
    | false =>
      by_cases hmem : '$' ∈ line.toList
      · exact .inr (.inr (hstarts hcomment hmem))
      · have hfits := h.resolve_left (by simp [hcomment])
        rw [Wrap.codePart_of_not_mem hmem, Wrap.fits, decide_eq_true_eq] at hfits
        exact .inl hfits

end Line

namespace Reading

variable {options : ReadOptions} {width : Nat} {line : String}

/-- Reading the line loses none of its code. -/
def ReadsCode (options : ReadOptions) (width : Nat) (line : String) : Prop :=
  ∀ path number log, ∃ kept log', (cutLine options width path number line).run log =
    (.ok kept, log') ∧ Wrap.codePart kept.toList = Wrap.codePart line.toList

/-- Reading the line loses nothing but the blanks at its end, and nothing is reported. -/
def ReadsWhole (options : ReadOptions) (width : Nat) (line : String) : Prop :=
  ∀ path number log, (cutLine options width path number line).run log =
    (.ok (trimEndString line), log)

theorem exists_run_cutLine (options : ReadOptions) (width : Nat) (path : String) (number : Nat)
    (line : String) (log : ReadLog) :
    ∃ log', (cutLine options width path number line).run log =
      (.ok (Line.keep width line), log') := by
  unfold cutLine Line.keep
  dsimp only
  split_ifs
  · exact ⟨log, rfl⟩
  · exact ⟨_, rfl⟩

/-- A line is read whole exactly if it is kept: any other is reported. -/
theorem readsWhole_iff : ReadsWhole options width line ↔
    ((trimEnd line.toList).length ≤ width ∨ Line.isComment line = true ∨
      '$' ∈ (trimEnd line.toList).take width) := by
  have hcondition : ((trimEnd line.toList).length ≤ width ∨ Line.isComment line = true ∨
      '$' ∈ (trimEnd line.toList).take width) ↔
      (decide ((trimEnd line.toList).length ≤ width) || Line.isComment line ||
        ((trimEnd line.toList).take width).contains '$') = true := by
    simp [or_assoc]
  rw [hcondition]
  constructor
  · intro h
    by_contra hcut
    have hrun := h "" 0 .empty
    rw [cutLine, if_neg hcut] at hrun
    have hwarnings := congrArg (fun r ↦ r.2.warnings.size) hrun
    cases hwarnings
  · intro h path number log
    rw [cutLine, if_pos h]
    rfl

/-- What was wrapped without a report for a version is read for the version without losing any code.
It is read whole exactly if on every line with a comment behind its code the comment starts within
the width. -/
theorem wrap_readsWhole_iff {w : LineWidth} (hw : LineWidth.ofVersion options.version = .ok w)
    {record : String} (h : (wrap w.columns record).warnings = []) :
    options.version.width = .ok w.columns ∧
    (∀ line ∈ lines (wrap w.columns record).text.toList,
      ReadsCode options w.columns (String.ofList line)) ∧
    ((∀ line ∈ lines (wrap w.columns record).text.toList,
        ReadsWhole options w.columns (String.ofList line)) ↔
      ∀ line ∈ lines (wrap w.columns record).text.toList, Line.isComment (String.ofList line) =
      false →
        '$' ∈ line → '$' ∈ line.take w.columns) := by
  have hcode (line : List Char) (hline : line ∈ lines (wrap w.columns record).text.toList) :
      Line.isComment (String.ofList line) = true ∨
        Wrap.fits w.columns (Wrap.codePart (String.ofList line).toList) = true := by
    rw [String.toList_ofList]
    exact Wrap.isComment_or_fits h hline
  refine ⟨RawDeck.width_of_ofVersion hw, fun line hline path number log ↦ ?_,
    forall₂_congr fun line hline ↦ ?_⟩
  · obtain ⟨log', hrun⟩ := exists_run_cutLine options w.columns path number (String.ofList line) log
    exact ⟨_, log', hrun, Line.codePart_keep (hcode line hline)⟩
  · rw [readsWhole_iff, Line.keeps_iff_of_fits (hcode line hline), String.toList_ofList]

/-- A long line is cut at a blank, and the comment on its second part is read with it. -/
theorem readsWhole_of_wrapped : ∃ (options : ReadOptions) (w : LineWidth) (record : String),
    LineWidth.ofVersion options.version = .ok w ∧ (wrap w.columns record).warnings = [] ∧
    (lines (wrap w.columns record).text.toList).length = 2 ∧
    ∀ line ∈ lines (wrap w.columns record).text.toList,
      ReadsWhole options w.columns (String.ofList line) := by
  let options : ReadOptions := ⟨⟨6, 1, 0⟩, true⟩
  let record := "1 0 -1" ++ spaces 80 ++ "2 $ both"
  have hw : LineWidth.ofVersion options.version = .ok ⟨80, by decide⟩ := rfl
  have hquiet : (wrap 80 record).warnings = [] := by decide +kernel
  have hlines : lines (wrap 80 record).text.toList = ["1 0 -1".toList, "     2 $ both".toList] := by
    decide +kernel
  refine ⟨options, _, record, hw, hquiet, by rw [hlines]; rfl,
    (wrap_readsWhole_iff hw hquiet).2.2.mpr ?_⟩
  rw [hlines]
  decide

/-- Code up to the last column is not wrapped, and the comment behind it is cut. -/
theorem not_readsWhole_of_full_line : ∃ (options : ReadOptions) (w : LineWidth) (record : String),
    LineWidth.ofVersion options.version = .ok w ∧ (wrap w.columns record).warnings = [] ∧
    ∃ line ∈ lines (wrap w.columns record).text.toList,
      ¬ReadsWhole options w.columns (String.ofList line) := by
  let record := "1 0 -1" ++ spaces 73 ++ "2 $ note"
  refine ⟨⟨⟨6, 1, 0⟩, true⟩, ⟨80, by decide⟩, record, rfl, by decide +kernel, record.toList,
    by decide +kernel, fun h ↦ ?_⟩
  have hkept :
    ((cutLine ⟨⟨6, 1, 0⟩, true⟩ 80 "deck" 1 (String.ofList record.toList)).run .empty).1 =
    .ok ("1 0 -1" ++ spaces 73 ++ "2") := by decide +kernel
  rw [h] at hkept
  revert hkept
  decide +kernel

end Reading

end TransportDeck
