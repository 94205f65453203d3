import TransportDeck.Output.Writer
import TransportDeck.Proofs.Input.Lines

/-!
# Written lines

The text of a deck is made of lines, each with a line end behind it.  Where all lines fit they are
written as they are, as kept lines always are; and cutting the text gives its lines again.
-/

namespace TransportDeck

namespace Text

theorem splitWhere_append_cons {p : Char → Bool} {cs : List Char} (h : ∀ c ∈ cs, p c = false)
    {d : Char} (hd : p d = true) (rest : List Char) :
    splitWhere p (cs ++ d :: rest) = cs :: splitWhere p rest := by
  induction cs with
  | nil => rw [List.nil_append, splitWhere, if_pos hd]
  | cons c cs ih =>
    rw [List.cons_append, splitWhere, h c List.mem_cons_self, if_neg Bool.false_ne_true,
      ih fun c' hc' ↦ h c' (List.mem_cons_of_mem _ hc')]

theorem splitWhere_of_forall {p : Char → Bool} {cs : List Char} (h : ∀ c ∈ cs, p c = false) :
    splitWhere p cs = [cs] := by
  induction cs with
  | nil => rfl
  | cons c cs ih =>
    rw [splitWhere, h c List.mem_cons_self, if_neg Bool.false_ne_true,
      ih fun c' hc' ↦ h c' (List.mem_cons_of_mem _ hc')]

/-- The first piece, and what the others are when more text stands in front. -/
theorem exists_splitWhere_append {p : Char → Bool} {cs : List Char} (h : ∀ c ∈ cs, p c = false)
    (rest : List Char) : ∃ ls, splitWhere p rest = rest.takeWhile (!p ·) :: ls ∧
      splitWhere p (cs ++ rest) = (cs ++ rest.takeWhile (!p ·)) :: ls := by
  obtain ⟨ls, hrest⟩ : ∃ ls, splitWhere p rest = rest.takeWhile (!p ·) :: ls := by
    induction rest with
    | nil => exact ⟨[], rfl⟩
    | cons d rest ih =>
      obtain ⟨ls, hrest⟩ := ih
      rw [splitWhere, hrest]
      cases hd : p d with
      | true => exact ⟨_, by simp [hd]; rfl⟩
      | false => exact ⟨ls, by simp [hd]⟩
  refine ⟨ls, hrest, ?_⟩
  induction cs with
  | nil => exact hrest
  | cons c cs ih =>
    rw [List.cons_append, splitWhere, h c List.mem_cons_self, if_neg Bool.false_ne_true,
      ih fun d hd ↦ h d (List.mem_cons_of_mem _ hd), List.cons_append]

theorem of_mem_splitWhere {p : Char → Bool} {cs piece : List Char} (h : piece ∈ splitWhere p cs) :
    ∀ c ∈ piece, p c = false := by
  induction cs generalizing piece with
  | nil =>
    obtain rfl := List.mem_singleton.mp h
    simp
  | cons c cs ih =>
    rw [splitWhere] at h
    split_ifs at h with hc
    · rcases List.mem_cons.mp h with rfl | h
      · simp
      · exact ih h
    · split at h
      · next hnil => exact absurd hnil (splitWhere_ne_nil _ _)
      · next w ws hw =>
        rw [hw] at ih
        rcases List.mem_cons.mp h with rfl | h
        · exact List.forall_mem_cons.mpr ⟨by simpa using hc, ih List.mem_cons_self⟩
        · exact ih (List.mem_cons_of_mem _ h)

theorem not_mem_of_mem_splitWhere {c : Char} {cs piece : List Char}
    (h : piece ∈ splitWhere (· == c) cs) : c ∉ piece := fun hc ↦ by
  have := of_mem_splitWhere h c hc
  simp at this

theorem subset_of_mem_splitWhere {p : Char → Bool} {cs piece : List Char}
    (h : piece ∈ splitWhere p cs) : piece ⊆ cs := by
  induction cs generalizing piece with
  | nil =>
    obtain rfl := List.mem_singleton.mp h
    exact List.Subset.refl _
  | cons c cs ih =>
    rw [splitWhere] at h
    split_ifs at h with hc
    · rcases List.mem_cons.mp h with rfl | h
      · exact List.nil_subset _
      · exact List.subset_cons_of_subset c (ih h)
    · split at h
      · next hnil => exact absurd hnil (splitWhere_ne_nil _ _)
      · next w ws hw =>
        rw [hw] at ih
        rcases List.mem_cons.mp h with rfl | h
        · exact List.cons_subset_cons c (ih List.mem_cons_self)
        · exact List.subset_cons_of_subset c (ih (List.mem_cons_of_mem _ h))

/-- The carriage return of a line end is a blank behind the line. -/
theorem exists_eq_dropReturn_append (cs : List Char) :
    ∃ bs, cs = dropReturn cs ++ bs ∧ allBlank bs = true := by
  unfold dropReturn
  split
  · next r hr =>
    refine ⟨['\r'], ?_, rfl⟩
    rw [← List.reverse_reverse cs, hr, List.reverse_cons]
  · exact ⟨[], (List.append_nil _).symm, rfl⟩

/-- A line is a piece between line feeds, up to blanks at its end. -/
theorem exists_piece_of_mem_closeLines {pieces : List (List Char)} {line : List Char}
    (h : line ∈ closeLines pieces) :
    ∃ piece ∈ pieces, ∃ bs, piece = line ++ bs ∧ allBlank bs = true := by
  induction pieces with
  | nil => cases h
  | cons piece rest ih =>
    cases rest with
    | nil =>
      rw [closeLines] at h
      split_ifs at h
      · cases h
      · exact ⟨line, h, [], (List.append_nil _).symm, rfl⟩
    | cons piece' rest =>
      rcases List.mem_cons.mp h with rfl | h
      · exact ⟨piece, List.mem_cons_self, exists_eq_dropReturn_append piece⟩
      · obtain ⟨p, hp, hline⟩ := ih h
        exact ⟨p, List.mem_cons_of_mem _ hp, hline⟩

/-- There is no line feed within a line. -/
theorem not_mem_of_mem_lines {cs line : List Char} (h : line ∈ lines cs) : '\n' ∉ line :=
  fun hmem ↦ by
  obtain ⟨piece, hpiece, bs, rfl, -⟩ := exists_piece_of_mem_closeLines h
  exact not_mem_of_mem_splitWhere hpiece (List.mem_append_left _ hmem)

/-- The lines, each with its line end. -/
def unlines (ls : List String) : String := String.join (ls.map (· ++ "\n"))

@[simp] theorem unlines_nil : unlines [] = "" := rfl

@[simp] theorem unlines_cons (l : String) (ls : List String) :
    unlines (l :: ls) = l ++ "\n" ++ unlines ls :=
  String.join_cons

@[simp] theorem unlines_append (ls ms : List String) :
    unlines (ls ++ ms) = unlines ls ++ unlines ms := by
  simp [unlines, String.join_append]

theorem unlines_flatMap {α : Type} (f : α → List String) (as : List α) :
    unlines (as.flatMap f) = String.join (as.map fun a ↦ unlines (f a)) := by
  induction as with
  | nil => rfl
  | cons a as ih => simp [String.join_cons, ih]

/-- A line that can be told from its line end. -/
def IsClosable (line : String) : Prop := '\n' ∉ line.toList ∧ trimEnd line.toList = line.toList

theorem IsClosable.dropReturn_eq {line : String} (h : IsClosable line) :
    dropReturn line.toList = line.toList := by
  unfold dropReturn
  split
  · next r hr =>
    have hlast := congrArg List.reverse hr
    rw [List.reverse_reverse, List.reverse_cons] at hlast
    have htrimmed := h.2
    rw [hlast] at htrimmed
    have hself := List.rdropWhile_eq_self_iff.mp htrimmed (by simp)
    rw [List.getLast_append_singleton] at hself
    exact absurd rfl hself
  · rfl

theorem lines_unlines_eq {ls : List String} (h : ∀ l ∈ ls, '\n' ∉ l.toList) :
    lines (unlines ls).toList = ls.map fun l ↦ dropReturn l.toList := by
  unfold lines
  induction ls with
  | nil => rfl
  | cons l ls ih =>
    have hl := h l List.mem_cons_self
    have hfree : ∀ c ∈ l.toList, (c == '\n') = false := fun c hc ↦ by
      rw [beq_eq_false_iff_ne]
      rintro rfl
      exact hl hc
    rw [unlines_cons, String.toList_append, String.toList_append, List.append_assoc]
    change closeLines (splitWhere (· == '\n') (l.toList ++ '\n' :: (unlines ls).toList)) = _
    rw [splitWhere_append_cons hfree rfl]
    obtain ⟨w, ws, hw⟩ :=
      List.exists_cons_of_ne_nil (splitWhere_ne_nil (· == '\n') (unlines ls).toList)
    have hrest := ih fun l' hl' ↦ h l' (List.mem_cons_of_mem _ hl')
    rw [hw] at hrest ⊢
    rw [closeLines, hrest, List.map_cons]
    exact List.cons_ne_nil _ _

theorem lines_unlines {ls : List String} (h : ∀ l ∈ ls, IsClosable l) :
    lines (unlines ls).toList = ls.map String.toList := by
  rw [lines_unlines_eq fun l hl ↦ (h l hl).1]
  exact List.map_congr_left fun l hl ↦ (h l hl).dropReturn_eq

/-- Texts joined at line ends are the pieces between the line ends. -/
theorem splitWhere_intercalate {ls : List String} (hne : ls ≠ []) (h : ∀ l ∈ ls, '\n' ∉ l.toList) :
    splitWhere (· == '\n') ("\n".intercalate ls).toList = ls.map String.toList := by
  have hfree : ∀ l ∈ ls, ∀ c ∈ l.toList, (c == '\n') = false := fun l hl c hc ↦ by
    rw [beq_eq_false_iff_ne]
    rintro rfl
    exact h l hl hc
  induction ls with
  | nil => exact absurd rfl hne
  | cons l ls ih =>
    cases ls with
    | nil =>
      rw [String.intercalate_singleton]
      exact splitWhere_of_forall (hfree l List.mem_cons_self)
    | cons m ls =>
      rw [String.intercalate_cons_cons, String.toList_append,
        String.toList_append, List.append_assoc]
      change splitWhere (· == '\n') (l.toList ++ '\n' :: ("\n".intercalate (m :: ls)).toList) = _
      rw [splitWhere_append_cons (hfree l List.mem_cons_self) rfl, List.map_cons,
        ih (List.cons_ne_nil _ _) (fun k hk ↦ h k (List.mem_cons_of_mem _ hk))
          (fun k hk ↦ hfree k (List.mem_cons_of_mem _ hk))]

/-- A text is whole lines and the start of another one. -/
theorem exists_unlines (cs : List Char) : ∃ (ls : List String) (last : List Char),
    cs = (unlines ls).toList ++ last ∧ '\n' ∉ last ∧ ∀ l ∈ ls, '\n' ∉ l.toList := by
  induction cs with
  | nil => exact ⟨[], [], rfl, by simp, by simp⟩
  | cons c cs ih =>
    obtain ⟨ls, last, rfl, hlast, hls⟩ := ih
    by_cases hc : c = '\n'
    · subst hc
      exact ⟨"" :: ls, last, by simp, hlast, List.forall_mem_cons.mpr ⟨by simp, hls⟩⟩
    · cases ls with
      | nil => exact ⟨[], c :: last, rfl, by simp [Ne.symm hc, hlast], by simp⟩
      | cons l ls =>
        obtain ⟨hl, hls⟩ := List.forall_mem_cons.mp hls
        refine ⟨String.ofList (c :: l.toList) :: ls, last, by
          simp, hlast, List.forall_mem_cons.mpr ⟨?_, hls⟩⟩
        simp [Ne.symm hc, hl]

theorem count_unlines {ls : List String} (h : ∀ l ∈ ls, '\n' ∉ l.toList) :
    (unlines ls).toList.count '\n' = ls.length := by
  induction ls with
  | nil => rfl
  | cons l ls ih =>
    obtain ⟨hl, hls⟩ := List.forall_mem_cons.mp h
    rw [unlines_cons, String.toList_append, String.toList_append, List.count_append,
      List.count_append, ih hls, List.count_eq_zero.mpr hl, List.length_cons]
    have hfeed : "\n".toList.count '\n' = 1 := by decide
    omega

theorem splitWhere_unlines {ls : List String} (h : ∀ l ∈ ls, '\n' ∉ l.toList) (rest : List Char) :
    splitWhere (· == '\n')
      ((unlines ls).toList ++ rest) = ls.map String.toList ++ splitWhere (· == '\n') rest := by
  induction ls with
  | nil => rfl
  | cons l ls ih =>
    obtain ⟨hl, hls⟩ := List.forall_mem_cons.mp h
    have hfree : ∀ c ∈ l.toList, (c == '\n') = false := fun c hc ↦ by
      rw [beq_eq_false_iff_ne]
      rintro rfl
      exact hl hc
    have htext : (unlines (l :: ls)).toList ++ rest =
        l.toList ++ '\n' :: ((unlines ls).toList ++ rest) := by simp
    rw [htext, splitWhere_append_cons hfree rfl, ih hls]
    rfl

/-- There is a piece in front of each mark, and one behind the last. -/
theorem length_splitWhere (p : Char → Bool) (cs : List Char) :
    (splitWhere p cs).length = cs.countP p + 1 := by
  induction cs with
  | nil => rfl
  | cons c cs ih =>
    rw [splitWhere]
    split_ifs with hc
    · rw [List.length_cons, ih, List.countP_cons_of_pos hc]
    · rw [List.countP_cons_of_neg hc, ← ih]
      cases hpieces : splitWhere p cs with
      | nil => exact absurd hpieces (splitWhere_ne_nil p cs)
      | cons w ws => rfl

theorem intercalate_append_eq_unlines {ls : List String} (hne : ls ≠ []) :
    "\n".intercalate ls ++ "\n" = unlines ls := by
  induction ls with
  | nil => exact absurd rfl hne
  | cons l ls ih =>
    cases ls with
    | nil => simp
    | cons m ls =>
      rw [String.intercalate_cons_cons, unlines_cons, ← ih (List.cons_ne_nil _ _)]
      simp [String.append_assoc]

end Text

open Text

/-! ## Lines that fit are not wrapped -/

/-- The line is a comment, or its code is no wider than the lines may be. -/
def Line.Fits (width : Nat) (line : String) : Prop :=
  line.toList.length ≤ width ∨ isComment line = true ∨ '$' ∈ line.toList.take width

theorem Line.Fits.wrapLine_eq {width : Nat} {line : String} (h : Fits width line) :
    Wrap.wrapLine width line.toList = ([line.toList], []) := by
  unfold Wrap.wrapLine
  split_ifs with hfits
  · rfl
  · rw [String.ofList_toList] at hfits
    simp only [Wrap.fits, Bool.or_eq_true, decide_eq_true_eq, not_or] at hfits
    have hdollar : '$' ∈ line.toList.take width := by
      rcases h with hlength | hcomment | hdollar
      · exact absurd hlength hfits.1
      · exact absurd hcomment hfits.2
      · exact hdollar
    have hcode : Wrap.fits width (Wrap.codePart line.toList) = true := by
      rw [Wrap.fits, decide_eq_true_eq, Wrap.codePart]
      refine (trimEnd_isPrefix _).length_le.trans (le_of_not_ge fun hge ↦ ?_)
      have hstart := List.prefix_of_prefix_length_le (List.take_prefix width line.toList)
        (List.takeWhile_prefix (· != '$')) ((List.length_take_le _ _).trans hge)
      simpa using List.mem_takeWhile_imp (hstart.subset hdollar)
    rw [Wrap.cutLine, if_pos hcode]

/-- A card whose lines fit is written as it is. -/
theorem wrap_intercalate {width : Nat} {ls : List String} (hne : ls ≠ [])
    (hline : ∀ l ∈ ls, '\n' ∉ l.toList) (h : ∀ l ∈ ls, Line.Fits width l) :
    wrap width ("\n".intercalate ls) = .ofText ("\n".intercalate ls) := by
  have hparts : (ls.map String.toList).map (Wrap.wrapLine width) = ls.map fun l ↦
      ([l.toList], []) := by
    rw [List.map_map]
    exact List.map_congr_left fun l hl ↦ (h l hl).wrapLine_eq
  rw [wrap, splitWhere_intercalate hne hline, hparts]
  have htexts : (ls.flatMap fun l ↦ [l.toList]).map String.ofList = ls := by
    rw [List.map_flatMap]
    simp
  have hwarnings : (ls.flatMap fun _ ↦ ([] : List Warning)) = [] := by simp
  simp only [List.flatMap_map, htexts, hwarnings, Rendered.ofText]

end TransportDeck
