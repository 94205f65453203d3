import TransportDeck.Proofs.Output.Lines
import TransportDeck.Source.Excerpt

/-!
# Positions and pictures of them

A position counts the bytes in front of it, its line the line ends, and its column the characters
since the last of these.  The picture of a text that marks a position has the mark under the line
that the position is in, and under the character there.
-/

namespace TransportDeck

open Text

/-! ## Positions -/

namespace Position

theorem offset_advance (p : Position) (cs : List Char) :
    (p.advance cs).offset = p.offset + byteSize cs := by
  induction cs generalizing p with
  | nil => rfl
  | cons c cs ih =>
    have hstep : (p.step c).offset = p.offset + c.utf8Size := by
      unfold step
      split_ifs with hc
      · rw [hc]
        rfl
      · rfl
    rw [advance_cons, ih, hstep, Nat.add_assoc]
    rfl

theorem line_advance (p : Position) (cs : List Char) :
    (p.advance cs).line = p.line + cs.count '\n' := by
  induction cs generalizing p with
  | nil => rfl
  | cons c cs ih =>
    rw [advance_cons, ih, List.count_cons, step]
    by_cases hc : c = '\n'
    · rw [if_pos hc, if_pos (by simpa using hc)]
      dsimp only
      omega
    · rw [if_neg hc, if_neg (by simpa using hc)]
      rfl

theorem column_advance (p : Position) {cs : List Char} (h : '\n' ∉ cs) :
    (p.advance cs).column = p.column + cs.length := by
  induction cs generalizing p with
  | nil => rfl
  | cons c cs ih =>
    rw [List.mem_cons, not_or] at h
    rw [advance_cons, ih _ h.2, step, if_neg (Ne.symm h.1), List.length_cons]
    dsimp only
    omega

theorem one_le_column_advance (cs : List Char) : 1 ≤ (start.advance cs).column := by
  induction cs using List.reverseRec with
  | nil => exact le_rfl
  | append_singleton cs c ih =>
    rw [advance_append, advance_cons, advance_nil, step]
    split_ifs
    · exact le_rfl
    · exact ih.trans (Nat.le_succ _)

/-- Behind whole lines a position is in the first column. -/
theorem column_advance_unlines (ls : List String) :
    (start.advance (unlines ls).toList).column = 1 := by
  induction ls using List.reverseRec with
  | nil => rfl
  | append_singleton ls l =>
    have hfeed (p : Position) : (p.advance ['\n']).column = 1 := rfl
    rw [unlines_append, unlines_cons, unlines_nil, String.append_empty, String.toList_append,
      String.toList_append, advance_append, advance_append]
    exact hfeed _

end Position

/-- If the sum of the line and the first line is a word, the lines in between are counted. -/
theorem lineInFile_eq {first n : Nat} (hn : 1 ≤ n) (h : n + first < UInt32.size) :
    lineInFile first n = n - 1 + first := by
  have hsum : (UInt32.ofNat n + UInt32.ofNat first).toNat = n + first := by
    rw [← UInt32.ofNat_add]
    exact UInt32.toNat_ofNat_of_lt' h
  have hle : (1 : UInt32) ≤ UInt32.ofNat n + UInt32.ofNat first := by
    rw [UInt32.le_iff_toNat_le, hsum]
    exact hn.trans (Nat.le_add_right n first)
  rw [lineInFile, UInt32.toNat_sub_of_le _ _ hle, hsum]
  change n + first - 1 = n - 1 + first
  omega

/-- The part of a text in front of a byte is determined. -/
theorem Text.eq_of_byteSize_eq {as bs cs ds : List Char} (h : as ++ cs = bs ++ ds)
    (hsize : byteSize as = byteSize bs) : as = bs := by
  have hpos (c : Char) (cs : List Char) : byteSize (c :: cs) ≠ 0 := by
    have := c.utf8Size_pos
    change c.utf8Size + byteSize cs ≠ 0
    omega
  induction as generalizing bs with
  | nil =>
    cases bs with
    | nil => rfl
    | cons b bs => exact absurd hsize.symm (hpos b bs)
  | cons a as ih =>
    cases bs with
    | nil => exact absurd hsize (hpos a as)
    | cons b bs =>
      obtain ⟨rfl, htail⟩ := List.cons.inj h
      rw [ih htail (Nat.add_left_cancel hsize)]

/-! ## Pictures -/

namespace Excerpt

variable (e : Excerpt)

/-- A line with the number that it has in its file. -/
def plain (index : Nat) (line : String) : String :=
  ">" ++ padLeft 5 ' ' (toString (index + e.firstLine)) ++ "| " ++ line ++ "\n"

/-- Lines one behind the other, from a number on. -/
def plainLines (index : Nat) (ls : List String) : String :=
  String.join (ls.mapIdx fun i l ↦ e.plain (index + i) l)

/-- A caret line that marks `width` characters behind `n` others. -/
def carets (n width : Nat) : String :=
  spaces 6 ++ "| " ++ spaces n ++ String.ofList (List.replicate width '^') ++
    " not expected here.\n"

/-- In the picture the carets stand right under the line in which the place behind the text `before`
is, and under that place: behind the characters `left` of the line. -/
structure Shows (span : Span) (message : String) (before : List Char) (picture : String) :
    Prop where
  exists_lines : ∃ above line below left right width, e.lines = above ++ line :: below ∧
    before = (unlines above).toList ++ left ∧ line.toList = left ++ right ∧ 1 ≤ width ∧
      span.start.line = above.length + 1 ∧ span.start.column = left.length + 1 ∧
        picture = "Error: " ++ message ++ "\n" ++
          "  --> " ++ toString (above.length + e.firstLine) ++ ":" ++ toString span.start.column ++
          "\n" ++
          (e.plainLines 0 above ++ (e.plain above.length line ++ carets left.length width) ++
            e.plainLines (above.length + 1) below)

variable {e}

/-- The number of a line of the picture, if it is a word. -/
theorem lineInFile_firstLine {index : Nat} (h : index + 1 + e.firstLine < UInt32.size) :
    lineInFile e.firstLine (index + 1) = index + e.firstLine :=
  lineInFile_eq (Nat.le_add_left 1 index) h

theorem numbered_of_ne {span : Span} {index : Nat} (hword : index + 1 + e.firstLine < UInt32.size)
    (h : index + 1 ≠ span.start.line) (line : String) :
    e.numbered span index line = e.plain index line := by
  rw [numbered, if_neg (by simpa using h), String.append_empty, plain, lineInFile_firstLine hword]

theorem numbered_of_eq {span : Span} {index : Nat} (hword : index + 1 + e.firstLine < UInt32.size)
    (h : index + 1 = span.start.line) (line : String) :
    e.numbered span index line = e.plain index line ++ marker span line := by
  rw [numbered, if_pos (by simpa using h), plain, lineInFile_firstLine hword]

/-- Lines without the mark are shown with their numbers only. -/
theorem join_numbered_of_ne {span : Span} {index : Nat} {ls : List String}
    (hword : index + ls.length + e.firstLine < UInt32.size)
    (h : ∀ i < ls.length, index + i + 1 ≠ span.start.line) :
    String.join (ls.mapIdx fun i l ↦ e.numbered span (index + i) l) = e.plainLines index ls := by
  have hlines : (ls.mapIdx fun i l ↦ e.numbered span (index + i) l) = ls.mapIdx fun i l ↦
      e.plain (index + i) l := by
    refine List.ext_getElem (by simp) fun i hi hi' ↦ ?_
    rw [List.length_mapIdx] at hi
    rw [List.getElem_mapIdx, List.getElem_mapIdx, numbered_of_ne (by omega) (h i hi)]
  rw [hlines, plainLines]

/-- A text whose lines have numbers that are words is shown with its lines counted from the first
one on, and the carets under the place where the span starts. -/
theorem shows_render {span : Span} {message : String} {before behind : List Char}
    (hsource : e.source.toList = before ++ behind)
    (hstart : span.start = Position.start.advance before)
    (hwords : e.source.toList.count '\n' + 1 + e.firstLine < UInt32.size) :
    e.Shows span message before (e.render span message) := by
  obtain ⟨above, left, rfl, hleft, habove⟩ := exists_unlines before
  have hfree : ∀ c ∈ left, (c == '\n') = false := fun c hc ↦ by
    rw [beq_eq_false_iff_ne]
    rintro rfl
    exact hleft hc
  obtain ⟨ls, -, hls⟩ := exists_splitWhere_append hfree behind
  let line := String.ofList (left ++ behind.takeWhile (!· == '\n'))
  have hlines : e.lines = above ++ line :: ls.map String.ofList := by
    rw [lines, splitString, hsource, List.append_assoc, splitWhere_unlines habove, hls]
    simp [line]
  have hline : span.start.line = above.length + 1 := by
    rw [hstart, Position.line_advance, List.count_append, count_unlines habove,
      List.count_eq_zero.mpr hleft]
    change 1 + _ = _
    omega
  have hcolumn : span.start.column = left.length + 1 := by
    rw [hstart, Position.advance_append, Position.column_advance _ hleft,
      Position.column_advance_unlines]
    omega
  have hmarker : marker span line = carets left.length (markWidth span line) := by
    rw [marker, carets, hcolumn, Nat.add_sub_cancel]
  have hcount : (above.length + 1 + ls.length) = e.source.toList.count '\n' + 1 := by
    have hlength : e.lines.length = e.source.toList.count '\n' + 1 := by
      rw [lines, splitString, List.length_map, length_splitWhere, List.count]
    rw [← hlength, hlines, List.length_append, List.length_cons, List.length_map]
    omega
  have hnumber : lineInFile e.firstLine span.start.line = above.length + e.firstLine := by
    rw [hline, lineInFile_firstLine (by omega)]
  have habove' : String.join (above.mapIdx (e.numbered span)) = e.plainLines 0 above := by
    have hjoin : String.join (above.mapIdx fun i l ↦ e.numbered span (0 + i) l) =
        e.plainLines 0 above :=
      join_numbered_of_ne (by omega) fun i hi ↦ by omega
    rw [← hjoin]
    simp
  have hbelow : String.join ((ls.map String.ofList).mapIdx fun i l ↦
    e.numbered span (above.length + 1 + i) l) =
      e.plainLines (above.length + 1) (ls.map String.ofList) :=
    join_numbered_of_ne (by rw [List.length_map]; omega) fun i _ ↦ by omega
  refine ⟨above, line, ls.map String.ofList, left, _, markWidth span line, hlines, rfl,
    String.toList_ofList, Nat.le_max_left _ _, hline, hcolumn, ?_⟩
  rw [render, hnumber, hlines, List.mapIdx_append, List.mapIdx_cons, String.join_append,
    String.join_cons, habove', Nat.zero_add, numbered_of_eq (by omega) hline.symm,
    hmarker, ← hbelow]
  have hindex : (fun i ↦ e.numbered span (i + 1 + above.length)) =
      fun i l ↦ e.numbered span (above.length + 1 + i) l := by
    funext i l
    rw [Nat.add_right_comm, Nat.add_assoc, Nat.add_comm i]
  rw [hindex]
  simp only [String.append_assoc]

end Excerpt

end TransportDeck
