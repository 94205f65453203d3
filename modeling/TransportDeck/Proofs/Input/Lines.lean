import Mathlib.Data.List.DropRight
import Mathlib.Tactic
import TransportDeck.Input.Reader

/-!
# Kept lines

A card keeps a line without the blanks at its end, and without what lies past the width.  If
anything is left of the line, it is a comment, starts a card or continues one as the whole line
does, and a line that is kept is kept as it is when it is read again.
-/

namespace TransportDeck

namespace Text

/-- A text is its trimmed start and some blanks. -/
theorem exists_eq_trimEnd_append (cs : List Char) :
    ∃ bs, cs = trimEnd cs ++ bs ∧ allBlank bs = true :=
  ⟨cs.rtakeWhile isBlank, List.rdropWhile_append_rtakeWhile.symm,
    List.all_eq_true.mpr fun _ h ↦ List.mem_rtakeWhile_imp h⟩

@[simp] theorem trimEnd_trimEnd (cs : List Char) : trimEnd (trimEnd cs) = trimEnd cs :=
  List.rdropWhile_idempotent _ _

/-- Trimming takes from the end only. -/
theorem trimEnd_isPrefix (cs : List Char) : trimEnd cs <+: cs := List.rdropWhile_prefix _ _

/-- Only a blank text is trimmed to nothing. -/
theorem trimEnd_eq_nil_iff {cs : List Char} : trimEnd cs = [] ↔ allBlank cs = true := by
  rw [allBlank, List.all_eq_true]
  exact List.rdropWhile_eq_nil_iff

/-- A trimmed text is blank only if it is empty. -/
theorem allBlank_trimEnd {cs : List Char} (h : trimEnd cs ≠ []) :
    allBlank (trimEnd cs) = false := by
  rw [← Bool.not_eq_true, ← trimEnd_eq_nil_iff, trimEnd_trimEnd]
  exact h

theorem allBlank_append (as bs : List Char) : allBlank (as ++ bs) = (allBlank as && allBlank bs) :=
  List.all_append

/-- Blanks at the end are trimmed off. -/
theorem trimEnd_append_of_allBlank {as bs : List Char} (h : allBlank bs = true) :
    trimEnd (as ++ bs) = trimEnd as := by
  induction bs using List.reverseRecOn with
  | nil => rw [List.append_nil]
  | append_singleton bs b ih =>
    rw [allBlank_append, Bool.and_eq_true] at h
    have hb : isBlank b = true := List.all_eq_true.mp h.2 b List.mem_cons_self
    have hdrop : trimEnd (as ++ bs ++ [b]) = trimEnd (as ++ bs) :=
      List.rdropWhile_concat_pos _ _ _ hb
    rw [← List.append_assoc, hdrop, ih h.1]

/-- In front of a text that is not blank nothing is trimmed. -/
theorem trimEnd_append_of_solid {as bs : List Char} (h : allBlank bs = false) :
    trimEnd (as ++ bs) = as ++ trimEnd bs := by
  obtain ⟨ds, hds, hblank⟩ := exists_eq_trimEnd_append bs
  have hne : trimEnd bs ≠ [] := fun hnil ↦ by
    rw [trimEnd_eq_nil_iff.mp hnil] at h
    cases h
  conv_lhs => rw [hds, ← List.append_assoc, trimEnd_append_of_allBlank hblank]
  refine List.rdropWhile_eq_self_iff.mpr fun hne' ↦ ?_
  rw [List.getLast_append_of_right_ne_nil _ _ hne]
  exact List.rdropWhile_last_not _ _ hne

/-- Blanks at the end of a text are all that is missing if it keeps within its front. -/
theorem trimEnd_append_of_length_le {as bs : List Char}
    (h : (trimEnd (as ++ bs)).length ≤ as.length) : trimEnd (as ++ bs) = trimEnd as := by
  cases hbs : allBlank bs with
  | true => exact trimEnd_append_of_allBlank hbs
  | false =>
    rw [trimEnd_append_of_solid hbs, List.length_append] at h
    have hnil : trimEnd bs = [] := List.eq_nil_of_length_eq_zero (by omega)
    rw [trimEnd_eq_nil_iff.mp hnil] at hbs
    cases hbs

/-- Trimming takes blanks only. -/
theorem mem_trimEnd_iff {cs : List Char} {c : Char} (h : isBlank c = false) :
    c ∈ trimEnd cs ↔ c ∈ cs := by
  obtain ⟨bs, hbs, hblank⟩ := exists_eq_trimEnd_append cs
  refine ⟨fun hc ↦ (trimEnd_isPrefix cs).subset hc, fun hc ↦ ?_⟩
  rw [hbs] at hc
  rcases List.mem_append.mp hc with hc | hc
  · exact hc
  · rw [List.all_eq_true.mp hblank c hc] at h
    cases h

/-- In the first columns, too, trimming takes blanks only. -/
theorem mem_take_trimEnd_iff {cs : List Char} {c : Char} (h : isBlank c = false) (n : Nat) :
    c ∈ (trimEnd cs).take n ↔ c ∈ cs.take n := by
  obtain ⟨bs, hbs, hblank⟩ := exists_eq_trimEnd_append cs
  refine ⟨fun hc ↦ ((trimEnd_isPrefix cs).take n).subset hc, fun hc ↦ ?_⟩
  rw [hbs, List.take_append] at hc
  rcases List.mem_append.mp hc with hc | hc
  · exact hc
  · rw [List.all_eq_true.mp hblank c ((List.take_prefix _ _).subset hc)] at h
    cases h

/-- A text has at least as many bytes as characters. -/
theorem length_le_byteSize (cs : List Char) : cs.length ≤ byteSize cs := by
  induction cs with
  | nil => exact le_rfl
  | cons c cs ih =>
    have := c.utf8Size_pos
    change cs.length + 1 ≤ c.utf8Size + byteSize cs
    omega

end Text

open Text

namespace Line

/-! ## Shorter lines -/

/-- What is left of a line that loses something behind a blank or behind the first columns, if it is
not blank. -/
def Shortens (line short : List Char) : Prop :=
  allBlank short = false ∧ ∃ bs, line = short ++ bs ∧
    ((∀ c ∈ bs.head?, Text.isBlank c = true) ∨ Limits.continuationColumns < short.length)

variable {line short : List Char}

/-- A shortened line has blank first columns if the line has. -/
theorem Shortens.allBlank_firstColumns (h : Shortens line short) :
    allBlank (firstColumns (String.ofList short)) =
      allBlank (firstColumns (String.ofList line)) := by
  obtain ⟨hsolid, bs, rfl, -⟩ := h
  simp only [firstColumns, String.toList_ofList]
  rcases le_total Limits.continuationColumns short.length with hle | hle
  · rw [List.take_append_of_le_length hle]
  · rw [List.take_append, List.take_of_length_le hle, allBlank_append, hsolid, Bool.false_and]

/-- What stands in the first columns of a shortened line stands there in the line. -/
theorem Shortens.mem_firstColumns (h : Shortens line short) {c : Char}
    (hc : c ∈ firstColumns (String.ofList short)) : c ∈ firstColumns (String.ofList line) := by
  obtain ⟨-, bs, rfl, -⟩ := h
  rw [firstColumns, String.toList_ofList] at hc ⊢
  rw [List.take_append]
  exact List.mem_append_left _ hc

/-- What stands behind a lone letter in one of the first columns stays away from it. -/
theorem Shortens.isComment_eq (h : Shortens line short) :
    isComment (String.ofList short) = isComment (String.ofList line) := by
  obtain ⟨hsolid, bs, rfl, hcut⟩ := h
  have hne : short.dropWhile Text.isBlank ≠ [] := fun h ↦ by
    rw [List.dropWhile_eq_nil_iff] at h
    rw [allBlank, List.all_eq_true.mpr h] at hsolid
    cases hsolid
  obtain ⟨c, rest, hrest⟩ := List.exists_cons_of_ne_nil hne
  have hdrop : (short ++ bs).dropWhile Text.isBlank = c :: (rest ++ bs) := by
    rw [List.dropWhile_append, hrest]
    rfl
  have htake : (short ++ bs).takeWhile Text.isBlank = short.takeWhile Text.isBlank := by
    refine (List.append_left_inj (c :: (rest ++ bs))).mp ?_
    rw [← hdrop, List.takeWhile_append_dropWhile, hdrop, ← List.cons_append, ← List.append_assoc,
      ← hrest, List.takeWhile_append_dropWhile]
  simp only [isComment, String.toList_ofList, hdrop, htake, hrest]
  cases rest with
  | cons d rest => rfl
  | nil =>
    rcases hcut with hblank | hlong
    · cases bs with
      | nil => rfl
      | cons d bs =>
        have hd : Text.isBlank d = true := hblank d rfl
        simp [endsWord, hd]
    · have hlength :=
        congrArg List.length (List.takeWhile_append_dropWhile (p := Text.isBlank) (l := short))
      rw [hrest, List.length_append, List.length_singleton] at hlength
      have hbytes : ¬byteSize (short.takeWhile Text.isBlank) < Limits.continuationColumns := by
        have := length_le_byteSize (short.takeWhile Text.isBlank)
        omega
      simp only [hbytes, decide_false, Bool.false_and]

/-- A trimmed line is a shortened one, unless nothing is left. -/
theorem shortens_trimEnd (h : trimEnd line ≠ []) : Shortens line (trimEnd line) := by
  obtain ⟨bs, hbs, hblank⟩ := exists_eq_trimEnd_append line
  refine ⟨allBlank_trimEnd h, bs, hbs, .inl fun c hc ↦ ?_⟩
  exact List.all_eq_true.mp hblank c (List.mem_of_mem_head? hc)

/-- A line that is cut to the width, and trimmed, is a shortened one, unless nothing is left. -/
theorem shortens_cut {width : Nat} (hwidth : Limits.continuationColumns < width)
    (hlong : width ≤ line.length) (h : trimEnd (line.take width) ≠ []) :
    Shortens line (trimEnd (line.take width)) := by
  obtain ⟨bs, hbs, hblank⟩ := exists_eq_trimEnd_append (line.take width)
  refine ⟨allBlank_trimEnd h, bs ++ line.drop width, ?_, ?_⟩
  · rw [← List.append_assoc, ← hbs, List.take_append_drop]
  · cases bs with
    | nil =>
      rw [List.append_nil] at hbs
      rw [← hbs, List.length_take, min_eq_left hlong]
      exact .inr hwidth
    | cons b bs =>
      refine .inl fun c hc ↦ ?_
      obtain rfl : b = c := by simpa using hc
      exact List.all_eq_true.mp hblank b List.mem_cons_self

theorem Shortens.trans {shorter : List Char} (h : Shortens line short)
    (h' : Shortens short shorter) :
    Shortens line shorter := by
  obtain ⟨-, bs, rfl, hcut⟩ := h
  obtain ⟨hsolid, ds, rfl, hcut'⟩ := h'
  refine ⟨hsolid, ds ++ bs, List.append_assoc _ _ _, ?_⟩
  cases ds with
  | nil => simpa using hcut
  | cons d ds => simpa using hcut'

/-! ## What is kept of a line -/

/-- The line as a card keeps it. -/
def keep (width : Nat) (line : String) : String :=
  let kept := trimEnd line.toList
  if kept.length ≤ width || isComment line || (kept.take width).contains '$' then String.ofList kept
  else String.ofList (trimEnd (kept.take width))

/-- What is kept of a line is its start. -/
theorem keep_isPrefix (width : Nat) (line : String) : (keep width line).toList <+: line.toList := by
  unfold keep
  dsimp only
  split_ifs
  · rw [String.toList_ofList]
    exact trimEnd_isPrefix _
  · rw [String.toList_ofList]
    exact (trimEnd_isPrefix _).trans ((List.take_prefix _ _).trans (trimEnd_isPrefix _))

/-- Nothing of the line gets lost. -/
structure IsKept (width : Nat) (line : String) : Prop where
  trimmed : trimEnd line.toList = line.toList
  fits : line.toList.length ≤ width ∨ isComment line = true ∨ '$' ∈ line.toList.take width

/-- A line that is kept is not changed when it is kept again. -/
theorem IsKept.keep_eq {width : Nat} {line : String} (h : IsKept width line) :
    keep width line = line := by
  have hfits : (decide (line.toList.length ≤ width) || isComment line ||
      (line.toList.take width).contains '$') = true := by
    simpa [or_assoc] using h.fits
  rw [keep, h.trimmed, if_pos hfits, String.ofList_toList]

theorem isKept_empty (width : Nat) : IsKept width "" := ⟨rfl, .inl (Nat.zero_le _)⟩

section Kept

variable {width : Nat} (hwidth : Limits.continuationColumns < width)
include hwidth

/-- What is kept of a line is a shortened line, unless nothing is left. -/
theorem shortens_keep {line : String} (h : keep width line ≠ "") :
    Shortens line.toList (keep width line).toList := by
  unfold keep at h ⊢
  dsimp only at h ⊢
  split_ifs at h ⊢ with hfits
  · rw [String.toList_ofList]
    exact shortens_trimEnd fun hnil ↦ h (by rw [hnil])
  · rw [String.toList_ofList]
    simp only [Bool.or_eq_true, decide_eq_true_eq, not_or, not_le] at hfits
    have hcut : trimEnd ((trimEnd line.toList).take width) ≠ [] := fun hnil ↦ h (by rw [hnil])
    have hne : trimEnd line.toList ≠ [] := fun hnil ↦ by
      rw [hnil] at hcut
      exact hcut (by simp [trimEnd])
    exact (shortens_trimEnd hne).trans (shortens_cut hwidth hfits.1.1.le hcut)

/-- What is kept of a line is kept as it is. -/
theorem isKept_keep (line : String) : IsKept width (keep width line) := by
  by_cases hempty : keep width line = ""
  · rw [hempty]
    exact isKept_empty width
  have hcomment := (shortens_keep hwidth hempty).isComment_eq
  rw [String.ofList_toList, String.ofList_toList] at hcomment
  refine ⟨?_, ?_⟩
  · unfold keep
    dsimp only
    split_ifs <;> simp
  · rw [hcomment]
    unfold keep
    dsimp only
    split_ifs with hfits
    · simpa [or_assoc] using hfits
    · left
      rw [String.toList_ofList]
      exact (trimEnd_isPrefix _).length_le.trans (List.length_take_le _ _)

theorem keep_keep (line : String) : keep width (keep width line) = keep width line :=
  (isKept_keep hwidth line).keep_eq

end Kept

/-! ## Normal lines -/

/-- The line as it is read. -/
def normal (replace : Bool) (line : List Char) : String :=
  let line := expandTabs line
  if replace && !line.all isAscii then String.ofList (blankOut line) else String.ofList line

/-- Nothing in the line has to be replaced. -/
structure IsPlain (replace : Bool) (line : String) : Prop where
  one_line : '\n' ∉ line.toList
  no_tab : '\t' ∉ line.toList
  ascii : replace = true → line.toList.all isAscii = true

/-- The start of a plain line is plain. -/
theorem IsPlain.of_isPrefix {replace : Bool} {line short : String} (h : IsPlain replace line)
    (hstart : short.toList <+: line.toList) : IsPlain replace short where
  one_line hmem := h.one_line (hstart.subset hmem)
  no_tab hmem := h.no_tab (hstart.subset hmem)
  ascii hreplace := List.all_eq_true.mpr fun c hc ↦
    List.all_eq_true.mp (h.ascii hreplace) c (hstart.subset hc)

theorem isPlain_empty (replace : Bool) : IsPlain replace "" := ⟨by simp, by simp, fun _ ↦ rfl⟩

/-- Expanding tabs puts in spaces only, and leaves no tab. -/
theorem mem_expandTabsFrom {column : Nat} {cs : List Char} {c : Char}
    (h : c ∈ expandTabsFrom column cs) : c = ' ' ∨ c ∈ cs ∧ c ≠ '\t' := by
  induction cs generalizing column with
  | nil => cases h
  | cons d cs ih =>
    rw [expandTabsFrom] at h
    split_ifs at h with hd
    · rcases List.mem_append.mp h with h | h
      · exact .inl (List.eq_of_mem_replicate h)
      · rcases ih h with hc | ⟨hc, hne⟩
        · exact .inl hc
        · exact .inr ⟨List.mem_cons_of_mem _ hc, hne⟩
    · rcases List.mem_cons.mp h with rfl | h
      · exact .inr ⟨List.mem_cons_self, by simpa using hd⟩
      · rcases ih h with hc | ⟨hc, hne⟩
        · exact .inl hc
        · exact .inr ⟨List.mem_cons_of_mem _ hc, hne⟩

/-- Without tabs there is nothing to expand. -/
theorem expandTabsFrom_of_not_mem {column : Nat} {cs : List Char} (h : '\t' ∉ cs) :
    expandTabsFrom column cs = cs := by
  induction cs generalizing column with
  | nil => rfl
  | cons c cs ih =>
    simp only [List.mem_cons, not_or] at h
    rw [expandTabsFrom, if_neg (by simpa using Ne.symm h.1), ih h.2]

/-- A normalised line is plain. -/
theorem isPlain_normal {replace : Bool} {line : List Char} (h : '\n' ∉ line) :
    IsPlain replace (normal replace line) := by
  have hexpanded {c : Char} (hc : c ∈ expandTabs line) (hspace : c ≠ ' ') :
      c ≠ '\n' ∧ c ≠ '\t' := by
    rcases mem_expandTabsFrom hc with hc | ⟨hc, hne⟩
    · exact absurd hc hspace
    · exact ⟨fun heq ↦ h (heq ▸ hc), hne⟩
  have hblanked {c : Char} (hc : c ∈ blankOut (expandTabs line)) (hspace : c ≠ ' ') :
      c ∈ expandTabs line := by
    obtain ⟨d, hd, rfl⟩ := List.mem_map.mp hc
    split_ifs at hspace ⊢ with hascii
    · exact hd
    · exact absurd rfl hspace
  unfold normal
  dsimp only
  split_ifs with hreplace
  · refine ⟨?_, ?_, fun _ ↦ ?_⟩
    · rw [String.toList_ofList]
      exact fun hmem ↦ (hexpanded (hblanked hmem (by decide)) (by decide)).1 rfl
    · rw [String.toList_ofList]
      exact fun hmem ↦ (hexpanded (hblanked hmem (by decide)) (by decide)).2 rfl
    · rw [String.toList_ofList, List.all_eq_true]
      intro c hc
      obtain ⟨d, -, rfl⟩ := List.mem_map.mp hc
      split_ifs with hascii
      · exact hascii
      · rfl
  · refine ⟨?_, ?_, fun hr ↦ ?_⟩
    · rw [String.toList_ofList]
      exact fun hmem ↦ (hexpanded hmem (by decide)).1 rfl
    · rw [String.toList_ofList]
      exact fun hmem ↦ (hexpanded hmem (by decide)).2 rfl
    · rw [String.toList_ofList]
      simpa [hr] using hreplace

/-- A plain line is its own normal form. -/
theorem IsPlain.normal_eq {replace : Bool} {line : String} (h : IsPlain replace line) :
    normal replace line.toList = line := by
  have hexpand : expandTabs line.toList = line.toList := expandTabsFrom_of_not_mem h.no_tab
  have hascii : ¬(replace && !line.toList.all isAscii) = true := by
    cases replace with
    | false => simp
    | true => simp [h.ascii rfl]
  unfold normal
  dsimp only
  rw [hexpand, if_neg hascii, String.ofList_toList]

end Line

end TransportDeck
