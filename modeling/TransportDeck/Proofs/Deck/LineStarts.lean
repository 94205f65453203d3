import TransportDeck.Proofs.Deck.Comments
import TransportDeck.Proofs.Output.Width
import TransportDeck.Proofs.Token.Boundaries

/-!
# Lines that go on

When a text goes on, its last line does.  What the start of that line says to the reader stays the
same, if the two are set apart: by a blank, or because the line ends in a character that goes on
with no word.
-/

namespace TransportDeck

open Text Lexer

variable {cs rest : List Char}

/-! ## Lines that are not blank -/

theorem dropWhile_append_of_solid (h : allBlank cs = false) (rest : List Char) :
    (cs ++ rest).dropWhile isBlank = cs.dropWhile isBlank ++ rest := by
  have hne : cs.dropWhile isBlank ≠ [] := fun hnil ↦ by
    rw [allBlank, List.all_eq_true.mpr (List.dropWhile_eq_nil_iff.mp hnil)] at h
    cases h
  rw [List.dropWhile_append, if_neg (by simpa using hne)]

theorem takeWhile_append_of_solid (h : allBlank cs = false) (rest : List Char) :
    (cs ++ rest).takeWhile isBlank = cs.takeWhile isBlank := by
  rw [List.takeWhile_append, if_neg]
  intro hlength
  have hall := List.takeWhile_eq_self_iff.mp ((List.takeWhile_prefix isBlank).eq_of_length hlength)
  rw [allBlank, List.all_eq_true.mpr hall] at h
  cases h

/-! ## Lines in a text -/

/-- What stands in front of the last line ends in a line feed. -/
theorem exists_intercalate_concat (ls : List String) : ∃ before : List Char,
    (before = [] ∨ '\n' ∈ before.getLast?) ∧
      ∀ line, ("\n".intercalate (ls ++ [line])).toList = before ++ line.toList := by
  induction ls with
  | nil => exact ⟨[], .inl rfl, fun line ↦ by simp⟩
  | cons l ls ih =>
    obtain ⟨before, hbefore, htext⟩ := ih
    refine ⟨l.toList ++ '\n' :: before, .inr ?_, fun line ↦ ?_⟩
    · rw [List.getLast?_append, List.getLast?_cons]
      rcases hbefore with rfl | hlf
      · rfl
      · rw [hlf]
        rfl
    · obtain ⟨m, ms, hms⟩ : ∃ m ms, ls ++ [line] = m :: ms := by cases ls <;> exact ⟨_, _, rfl⟩
      rw [List.cons_append, hms, String.intercalate_cons_cons, ← hms, String.toList_append,
        String.toList_append, htext]
      simp

theorem intercalate_concat_append (ls : List String) (line : String) (rest : List Char) :
    "\n".intercalate (ls ++ [String.ofList (line.toList ++ rest)]) =
      "\n".intercalate (ls ++ [line]) ++ String.ofList rest := by
  obtain ⟨before, -, htext⟩ := exists_intercalate_concat ls
  rw [← String.toList_inj, htext, String.toList_append, htext]
  simp

/-- A line with some spaces behind it. -/
def Line.spaced (line : String) (n : Nat) : String :=
  String.ofList (line.toList ++ List.replicate n ' ')

theorem allBlank_replicate (n : Nat) : allBlank (List.replicate n ' ') = true := by
  rw [allBlank, List.all_eq_true]
  intro c hc
  rw [List.eq_of_mem_replicate hc]
  rfl

theorem isComment_spaced (line : String) (n : Nat) :
    Line.isComment (Line.spaced line n) = Line.isComment line := by
  have h : Line.isComment (String.ofList (line.toList ++ List.replicate n ' ')) = _ :=
    Line.isComment_append_of_allBlank (allBlank_replicate n)
  rwa [String.ofList_toList] at h

/-- What stands behind the first line starts with a line feed. -/
theorem exists_intercalate_cons (ls : List String) : ∃ behind : List Char,
    (behind = [] ∨ '\n' ∈ behind.head?) ∧ ∀ line,
      ("\n".intercalate (line :: ls)).toList = line.toList ++ behind := by
  cases ls with
  | nil => exact ⟨[], .inl rfl, fun line ↦ by simp⟩
  | cons l ls => exact ⟨'\n' :: ("\n".intercalate (l :: ls)).toList, .inr rfl, fun line ↦ by simp⟩

/-- Two texts meet in one line. -/
theorem intercalate_append_intercalate (ls ms : List String) (first last : String) :
    "\n".intercalate (ls ++ [first]) ++ "\n".intercalate (last :: ms) =
      "\n".intercalate (ls ++ (first ++ last) :: ms) := by
  induction ls with
  | nil => cases ms <;> simp [String.append_assoc]
  | cons l ls ih =>
    obtain ⟨m, rest, hrest⟩ : ∃ m rest, ls ++ [first] = m :: rest := by
      cases ls <;> exact ⟨_, _, rfl⟩
    obtain ⟨k, rest', hrest'⟩ : ∃ k rest', ls ++ (first ++ last) :: ms = k :: rest' := by
      cases ls <;> exact ⟨_, _, rfl⟩
    rw [List.cons_append, List.cons_append, hrest, hrest', String.intercalate_cons_cons,
      String.intercalate_cons_cons, ← hrest, ← hrest', ← ih]
    simp only [String.append_assoc]

/-! ## Starts of lines -/

namespace Line

theorem isComment_append (hsolid : allBlank cs = false) (hapart : Apart cs rest) :
    isComment (String.ofList (cs ++ rest)) = isComment (String.ofList cs) := by
  unfold isComment
  simp only [String.toList_ofList, takeWhile_append_of_solid hsolid,
    dropWhile_append_of_solid hsolid]
  cases hcs : cs.dropWhile Text.isBlank with
  | nil =>
    rw [allBlank, List.all_eq_true.mpr (List.dropWhile_eq_nil_iff.mp hcs)] at hsolid
    cases hsolid
  | cons c tail =>
    have hends : (c == 'c' || c == 'C') = true → endsWord (tail ++ rest) = endsWord tail :=
        fun hc ↦ by
      cases tail with
      | cons d tail => rfl
      | nil =>
        -- The line ends in a lone letter, so a blank stands behind it.
        have hlast : c ∈ cs.getLast? := by
          obtain ⟨as, has⟩ := List.dropWhile_suffix Text.isBlank (l := cs)
          rw [← has, hcs, List.getLast?_append]
          rfl
        rcases hapart with hrest | hbreak
        · cases rest with
          | nil => rfl
          | cons d rest => exact isBlank_of_endsLine hrest
        · have hmem : c ∈ breaks := hbreak c hlast
          exfalso
          revert hc
          fin_cases hmem <;> decide
    rw [List.cons_append]
    dsimp only
    cases hc : c == 'c' || c == 'C' with
    | false => rfl
    | true => rw [hends hc]

theorem allBlank_firstColumns_append (hsolid : allBlank cs = false) (rest : List Char) :
    allBlank (firstColumns (String.ofList (cs ++ rest))) =
      allBlank (firstColumns (String.ofList cs)) := by
  rw [firstColumns, firstColumns, String.toList_ofList, String.toList_ofList, List.take_append]
  rcases le_total Limits.continuationColumns cs.length with hle | hle
  · rw [Nat.sub_eq_zero_of_le hle, List.take_zero, List.append_nil]
  · rw [List.take_of_length_le hle, allBlank_append, hsolid, Bool.false_and]

end Line

namespace Card

theorem sameWord_read_of_mem {word : List Char} {c : Char} (h : c ∈ word) (hc : c = ')' ∨ c = '&') :
    sameWord (String.ofList word) "read" = false := by
  rw [sameWord, beq_eq_false_iff_ne, String.toList_ofList]
  intro heq
  have hmem : c.toLower ∈ lower word := List.mem_map_of_mem h
  rw [heq] at hmem
  revert hmem
  rcases hc with rfl | rfl <;> decide

theorem opensRead_append (hsolid : allBlank cs = false) (hapart : Apart cs rest) :
    opensRead (String.ofList (cs ++ rest)) = opensRead (String.ofList cs) := by
  have hne : cs.dropWhile isBlank ≠ [] := fun hnil ↦ by
    rw [allBlank, List.all_eq_true.mpr (List.dropWhile_eq_nil_iff.mp hnil)] at hsolid
    cases hsolid
  have hopens (X : List Char) : opensRead (String.ofList (cs ++ X)) =
      sameWord (String.ofList ((cs.dropWhile isBlank ++ X).takeWhile (!isBlank ·))) "read" := by
    rw [opensRead, String.toList_ofList, head?_words, dropWhile_append_of_solid hsolid,
      if_neg (by simp [hne])]
    rfl
  have hself := hopens []
  rw [List.append_nil, List.append_nil] at hself
  rw [hopens, hself, List.takeWhile_append]
  split_ifs with hword
  · -- The word goes on to the end of the line, so that ends in a mark, or a blank stands behind it.
    have hall := (List.takeWhile_prefix (fun c ↦ !isBlank c)).eq_of_length hword
    rw [hall]
    rcases hapart with hrest | hbreak
    · have hnone : rest.takeWhile (!isBlank ·) = [] := by
        cases rest with
        | nil => rfl
        | cons d rest => exact List.takeWhile_cons_of_neg (by simp [isBlank_of_endsLine hrest])
      rw [hnone, List.append_nil]
    · obtain ⟨as, has⟩ := List.dropWhile_suffix isBlank (l := cs)
      obtain ⟨c, hc⟩ := List.getLast?_isSome.mpr hne |> Option.isSome_iff_exists.mp
      have hlast : c ∈ cs.getLast? := by
        rw [← has, List.getLast?_append, hc]
        rfl
      have hmem := List.mem_of_getLast? hc
      have hblank : isBlank c = false := by
        have := List.takeWhile_eq_self_iff.mp hall c hmem
        simpa using this
      have hmark : c = ')' ∨ c = '&' := by
        have hc : c ∈ breaks := hbreak c hlast
        simp only [breaks, List.mem_cons, List.not_mem_nil, or_false] at hc
        rcases hc with rfl | rfl | rfl | rfl | rfl | hc
        · cases hblank
        · cases hblank
        · cases hblank
        · cases hblank
        · cases hblank
        · exact hc
      rw [sameWord_read_of_mem (List.mem_append_left _ hmem) hmark, sameWord_read_of_mem hmem hmark]
  · rfl

end Card

end TransportDeck
