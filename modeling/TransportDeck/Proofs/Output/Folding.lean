import TransportDeck.Proofs.Output.Stability
import TransportDeck.Proofs.Token.Relaying

/-!
# Folded lines

Wrapping a record breaks its lines at blanks behind code, again and again until the rest fits or
cannot be broken.  The tokens of the record stay, and every line that is added starts with the
indent.
-/

namespace TransportDeck

open Text

namespace Wrap

variable {width i n : Nat} {cs front back : List Char}

/-! ## Rounds -/

/-- The loop that cuts a line: in each round it ends with what is left of the line, or it puts out
the part in front of a break and goes on with the rest behind an indent. -/
inductive Rounds (width : Nat) : Nat → List Char → List (List Char) → List Warning → Prop where
  | fits {cs : List Char} (h : fits width (codePart cs) = true) : Rounds width 1 cs [cs] []
  | narrow {cs : List Char} (h : ¬fits width (codePart cs) = true)
      (hbreak : break? width cs = none) : Rounds width 1 cs [cs] [narrowWarning width cs]
  | cut {n i : Nat} {cs : List Char} {pieces : List (List Char)} {warnings : List Warning}
      (h : ¬fits width (codePart cs) = true) (hbreak : break? width cs = some i)
      (rest : Rounds width n (indent ++ trimStart (cs.drop i)) pieces warnings) :
      Rounds width (n + 1) cs (trimEnd (cs.take i) :: pieces) warnings

/-- Each round but the last leaves fewer characters that are no blanks. -/
theorem exists_rounds (width : Nat) (cs : List Char) :
    ∃ n ≤ visible cs + 1, Rounds width n cs (cutLine width cs).1 (cutLine width cs).2 := by
  induction cs using cutLine.induct width with
  | case1 cs hfits =>
    rw [cutLine, if_pos hfits]
    exact ⟨1, by omega, .fits hfits⟩
  | case2 cs hfits hbreak =>
    rw [cutLine_of_no_break hfits hbreak]
    exact ⟨1, by omega, .narrow hfits hbreak⟩
  | case3 cs hfits i hbreak ih =>
    rw [cutLine_of_break hfits hbreak]
    obtain ⟨n, hn, hrounds⟩ := ih
    have hless := visible_drop_lt_of_break hbreak
    rw [visible_append, visible_indent, visible_trimStart, Nat.zero_add] at hn
    exact ⟨n + 1, by omega, .cut hfits hbreak hrounds⟩

/-! ## Breaks -/

/-- A break is a blank in front of any comment, behind something that is no blank. -/
theorem exists_of_breakFrom? {seen : Bool} (h : breakFrom? seen n cs = some i) :
    ∃ pre b post, cs = pre ++ b :: post ∧ pre.length = i ∧ isBlank b = true ∧ '$' ∉ pre ∧
      (seen = true ∨ allBlank pre = false) := by
  induction cs generalizing seen n i with
  | nil => cases n <;> cases h
  | cons c cs ih =>
    cases n with
    | zero => cases h
    | succ n =>
      have hdollar : c ≠ '$' := by
        rintro rfl
        cases h
      rw [breakFrom?, if_neg (by simpa using hdollar)] at h
      cases hrest : breakFrom? (seen || !isBlank c) n cs with
      | some j =>
        rw [hrest] at h
        obtain rfl := Option.some.inj h
        obtain ⟨pre, b, post, rfl, rfl, hb, hpre, hseen⟩ := ih hrest
        refine ⟨c :: pre, b, post, rfl, rfl, hb, by simp [hpre, hdollar.symm], ?_⟩
        rw [Bool.or_eq_true, Bool.not_eq_true'] at hseen
        rcases hseen with (hseen | hc) | hpre
        · exact .inl hseen
        · exact .inr (by simp [allBlank, hc])
        · rw [allBlank] at hpre
          exact .inr (by simp [allBlank, hpre])
      | none =>
        rw [hrest] at h
        dsimp only at h
        split_ifs at h with hc
        obtain rfl := Option.some.inj h
        rw [Bool.and_eq_true] at hc
        exact ⟨[], c, cs, rfl, rfl, hc.2, by simp, .inl hc.1⟩

/-- The two parts of a line that is broken, and the blanks between them. -/
structure IsBroken (cs front gap back : List Char) : Prop where
  eq : cs = front ++ (gap ++ back)
  gap_ne : gap ≠ []
  blank : ∀ b ∈ gap, isBlank b = true
  unmarked : '$' ∉ front
  front_solid : ∃ c ∈ front.getLast?, isBlank c = false
  back_solid : ∃ c ∈ back.head?, isBlank c = false

/-- Where the code does not fit, some of it stands behind the break. -/
theorem exists_isBroken (hfits : ¬fits width (codePart cs) = true)
    (hbreak : break? width cs = some i) :
    ∃ gap, IsBroken cs (trimEnd (cs.take i)) gap (trimStart (cs.drop i)) := by
  have hi : i < width + 1 := breakFrom?_lt hbreak
  obtain ⟨pre, b, post, rfl, rfl, hb, hdollar, hpre⟩ := exists_of_breakFrom? hbreak
  replace hpre : allBlank pre = false := hpre.resolve_left Bool.false_ne_true
  rw [List.take_left, List.drop_left]
  obtain ⟨gap, hgap, hblank⟩ := exists_eq_trimEnd_append pre
  have hfront : trimEnd pre ≠ [] := fun hnil ↦ by
    rw [trimEnd_eq_nil_iff.mp hnil] at hpre
    cases hpre
  have hback : trimStart (b :: post) ≠ [] := fun hnil ↦ by
    have hall : allBlank (b :: post) = true :=
      List.all_eq_true.mpr (List.dropWhile_eq_nil_iff.mp hnil)
    rw [codePart_append_of_allBlank hall, fits, decide_eq_true_eq] at hfits
    have := length_codePart_le pre
    omega
  refine ⟨gap ++ (b :: post).takeWhile isBlank, ?_, ?_, ?_, ?_, ?_, ?_⟩
  · rw [List.append_assoc, trimStart, List.takeWhile_append_dropWhile, ← List.append_assoc, ← hgap]
  · rw [List.takeWhile_cons_of_pos hb]
    simp
  · exact List.forall_mem_append.mpr ⟨List.all_eq_true.mp hblank, fun c hc ↦
      List.mem_takeWhile_imp hc⟩
  · exact fun hmem ↦ hdollar ((trimEnd_isPrefix pre).subset hmem)
  · refine ⟨_, List.getLast?_eq_getLast_of_ne_nil hfront, ?_⟩
    exact eq_false_of_ne_true (List.rdropWhile_last_not isBlank pre hfront)
  · refine ⟨_, List.head?_eq_some_head hback, ?_⟩
    exact List.head_dropWhile_not isBlank hback

namespace IsBroken

variable {gap : List Char} (h : IsBroken cs front gap back)
include h

/-- The part in front is no comment if the line is none. -/
theorem isComment_eq :
    Line.isComment (String.ofList front) = Line.isComment (String.ofList cs) := by
  obtain ⟨c, hc, hsolid⟩ := h.front_solid
  refine Line.Shortens.isComment_eq ⟨?_, gap ++ back, h.eq, .inl fun b hb ↦ h.blank b ?_⟩
  · rw [← Bool.not_eq_true]
    intro hall
    rw [List.all_eq_true.mp hall c (List.mem_of_getLast? hc)] at hsolid
    cases hsolid
  · obtain ⟨b', gap, rfl⟩ := List.exists_cons_of_ne_nil h.gap_ne
    obtain rfl : b' = b := Option.some.inj hb
    exact List.mem_cons_self

/-- Within a record the line is broken. -/
theorem breaks {before : List Char} (after : List Char)
    (hbefore : before = [] ∨ '\n' ∈ before.getLast?) (hline : '\n' ∉ cs)
    (hcode : Line.isComment (String.ofList cs) = false) :
    Lexer.Breaks (before ++ (cs ++ after))
      (before ++ (front ++ '\n' :: (indent ++ back ++ after))) := by
  rw [h.eq] at hline
  simp only [List.mem_append, not_or] at hline
  have hsolid : ∃ c ∈ (back ++ after).head?, isBlank c = false := by
    obtain ⟨c, hc, hblank⟩ := h.back_solid
    exact ⟨c, by rw [List.head?_append, hc]; rfl, hblank⟩
  have hbreaks :=
    Lexer.Breaks.intro ⟨hbefore, hline.1, h.unmarked, h.isComment_eq.trans hcode, h.front_solid⟩
      h.gap_ne h.blank hline.2.1 hsolid (le_refl Limits.continuationColumns)
  have hindent : indent = List.replicate Limits.continuationColumns ' ' := rfl
  simpa [h.eq, hindent] using hbreaks

end IsBroken

/-- Behind the indent no comment starts. -/
theorem isComment_indent (cs : List Char) :
    Line.isComment (String.ofList (indent ++ cs)) = false := by
  have hblank : ∀ c ∈ indent, isBlank c = true := fun c hc ↦ by
    rw [List.eq_of_mem_replicate hc]
    rfl
  have hsize := length_le_byteSize (indent ++ cs.takeWhile isBlank)
  have hindent : indent.length = Limits.continuationColumns := rfl
  rw [List.length_append, hindent] at hsize
  have hnot : ¬byteSize (indent ++ cs.takeWhile isBlank) < Limits.continuationColumns := by omega
  simp [Line.isComment, List.takeWhile_append_of_pos hblank, hnot]

/-- A line that is no comment turns into its pieces by breaks. -/
theorem breaks_cutLine {before : List Char} (after : List Char)
    (hbefore : before = [] ∨ '\n' ∈ before.getLast?) (hline : '\n' ∉ cs)
    (hcode : Line.isComment (String.ofList cs) = false) :
    Relation.ReflTransGen Lexer.Breaks (before ++ (cs ++ after))
      (before ++ (['\n'].intercalate (cutLine width cs).1 ++ after)) := by
  induction cs using cutLine.induct width generalizing before with
  | case1 cs hfits =>
    rw [cutLine, if_pos hfits, List.intercalate_singleton]
  | case2 cs hfits hbreak =>
    rw [cutLine_of_no_break hfits hbreak, List.intercalate_singleton]
  | case3 cs hfits i hbreak ih =>
    obtain ⟨gap, hbroken⟩ := exists_isBroken hfits hbreak
    obtain ⟨piece, pieces, hpieces⟩ :=
      List.exists_cons_of_ne_nil (cutLine_ne_nil width (indent ++ trimStart (cs.drop i)))
    have hrest : '\n' ∉ indent ++ trimStart (cs.drop i) := fun hmem ↦ by
      rcases List.mem_append.mp hmem with hmem | hmem
      · cases List.eq_of_mem_replicate hmem
      · exact hline (((List.dropWhile_suffix _).trans (List.drop_suffix _ _)).subset hmem)
    refine .head (hbroken.breaks after hbefore hline hcode) ?_
    have hstart : '\n' ∈ (before ++ trimEnd (cs.take i) ++ ['\n']).getLast? := by simp
    have hfold := ih (.inr hstart) hrest (isComment_indent _)
    rw [cutLine_of_break hfits hbreak, hpieces, List.intercalate_cons_cons, ← hpieces]
    simpa using hfold

theorem breaks_wrapLine (width : Nat) {before line : List Char} (after : List Char)
    (hbefore : before = [] ∨ '\n' ∈ before.getLast?) (hline : '\n' ∉ line) :
    Relation.ReflTransGen Lexer.Breaks (before ++ (line ++ after))
      (before ++ (['\n'].intercalate (wrapLine width line).1 ++ after)) := by
  unfold wrapLine
  split_ifs with hwhole
  · rw [List.intercalate_singleton]
  · rw [Bool.or_eq_true, not_or, Bool.not_eq_true, Bool.not_eq_true] at hwhole
    exact breaks_cutLine after hbefore hline hwhole.2

theorem intercalate_append {as bs : List (List Char)} (has : as ≠ []) (hbs : bs ≠ []) :
    ['\n'].intercalate (as ++ bs) = ['\n'].intercalate as ++ '\n' :: ['\n'].intercalate bs := by
  induction as with
  | nil => exact absurd rfl has
  | cons a as ih =>
    cases as with
    | nil =>
      obtain ⟨b, bs, rfl⟩ := List.exists_cons_of_ne_nil hbs
      rw [List.singleton_append, List.intercalate_cons_cons,
        List.intercalate_singleton, List.append_assoc]
      rfl
    | cons a' as =>
      rw [List.cons_append, List.cons_append, List.intercalate_cons_cons,
        List.intercalate_cons_cons, ← List.cons_append, ih (List.cons_ne_nil _ _)]
      simp

theorem breaks_lines (width : Nat) {before : List Char} {ls : List (List Char)}
    (hbefore : before = [] ∨ '\n' ∈ before.getLast?) (hls : ∀ line ∈ ls, '\n' ∉ line) :
    Relation.ReflTransGen Lexer.Breaks (before ++ ['\n'].intercalate ls)
      (before ++ ['\n'].intercalate (ls.flatMap fun line ↦ (wrapLine width line).1)) := by
  induction ls generalizing before with
  | nil => exact .refl
  | cons line ls ih =>
    obtain ⟨hline, hls⟩ := List.forall_mem_cons.mp hls
    cases ls with
    | nil =>
      have hfold := breaks_wrapLine width [] hbefore hline
      simpa using hfold
    | cons next ls =>
      have hfirst := breaks_wrapLine width ('\n' :: ['\n'].intercalate (next :: ls)) hbefore hline
      have hstart : '\n' ∈
          (before ++ ['\n'].intercalate (wrapLine width line).1 ++ ['\n']).getLast? := by simp
      have hrest := ih (.inr hstart) hls
      have hne : (next :: ls).flatMap (fun line ↦ (wrapLine width line).1) ≠ [] := by
        simp [wrapLine_ne_nil]
      rw [List.flatMap_cons, intercalate_append (wrapLine_ne_nil width line) hne,
        List.intercalate_cons_cons]
      simpa using hfirst.trans (by simpa using hrest)

/-- A wrapped record comes about by breaks. -/
theorem breaks_wrap (width : Nat) (record : String) :
    Relation.ReflTransGen Lexer.Breaks record.toList (wrap width record).text.toList := by
  have hfree : ∀ line ∈ splitWhere (· == '\n') record.toList, '\n' ∉ line :=
    fun _ ↦ not_mem_of_mem_splitWhere
  have hbreaks := breaks_lines width (.inl rfl) hfree
  rwa [intercalate_splitWhere, ← toList_text_wrap] at hbreaks

/-! ## Added lines -/

/-- The line starts with the indent, and with no other blank behind it. -/
def IsContinuation (line : List Char) : Prop := ∃ c cs, line = indent ++ c :: cs ∧ isBlank c = false

theorem isContinuation_indent (h : ∃ c ∈ back.head?, isBlank c = false) :
    IsContinuation (indent ++ back) := by
  obtain ⟨c, hc, hsolid⟩ := h
  obtain ⟨cs, rfl⟩ := List.head?_eq_some_iff.mp hc
  exact ⟨c, cs, rfl, hsolid⟩

theorem IsBroken.isContinuation {gap : List Char} (h : IsBroken cs front gap back)
    (hcs : IsContinuation cs) :
    IsContinuation front := by
  obtain ⟨d, hd, hfront⟩ := h.front_solid
  obtain ⟨c, cs, rfl, hsolid⟩ := hcs
  rcases List.append_eq_append_iff.mp h.eq with ⟨as, rfl, has⟩ | ⟨as, hindent, -⟩
  · cases as with
    | nil =>
      rw [List.append_nil] at hd
      rw [List.eq_of_mem_replicate (List.mem_of_getLast? hd)] at hfront
      cases hfront
    | cons a as =>
      obtain ⟨rfl, -⟩ := List.cons.inj has
      exact ⟨c, as, rfl, hsolid⟩
  · have hmem : d ∈ indent := hindent ▸ List.mem_append_left _ (List.mem_of_getLast? hd)
    rw [List.eq_of_mem_replicate hmem] at hfront
    cases hfront

theorem isContinuation_of_mem_cutLine (h : IsContinuation cs) :
    ∀ piece ∈ (cutLine width cs).1, IsContinuation piece := by
  induction cs using cutLine.induct width with
  | case1 cs hfits =>
    rw [cutLine, if_pos hfits]
    simpa using h
  | case2 cs hfits hbreak =>
    rw [cutLine_of_no_break hfits hbreak]
    simpa using h
  | case3 cs hfits i hbreak ih =>
    obtain ⟨gap, hbroken⟩ := exists_isBroken hfits hbreak
    rw [cutLine_of_break hfits hbreak]
    exact List.forall_mem_cons.mpr
      ⟨hbroken.isContinuation h, ih (isContinuation_indent hbroken.back_solid)⟩

/-- All lines behind the first that a line becomes are added. -/
theorem isContinuation_of_mem_tail {line : List Char} :
    ∀ piece ∈ (wrapLine width line).1.tail, IsContinuation piece := by
  unfold wrapLine
  split_ifs with hwhole
  · simp
  by_cases hfits : fits width (codePart line) = true
  · rw [cutLine, if_pos hfits]
    simp
  cases hbreak : break? width line with
  | none =>
    rw [cutLine_of_no_break hfits hbreak]
    simp
  | some i =>
    obtain ⟨gap, hbroken⟩ := exists_isBroken hfits hbreak
    rw [cutLine_of_break hfits hbreak, List.tail_cons]
    exact isContinuation_of_mem_cutLine (isContinuation_indent hbroken.back_solid)

/-! ## Wrapped records -/

/-- What wrapping makes of a record with the tokens `ts`: the loop ends for every line, the tokens
stay up to their blanks, added lines start with the indent, and without a report the code of all
lines fits. -/
structure IsFolded (mode : LexMode) (width : Nat) (record : String) (ts : List Token) : Prop where
  ends : ∀ line ∈ splitWhere (· == '\n') record.toList,
    ∃ n ≤ visible line + 1, Rounds width n line (cutLine width line).1 (cutLine width line).2
  tokens : ∃ us, tokenize mode (wrap width record).text = .ok us ∧ List.Forall₂ Token.Relaid ts us
  lines_eq : splitWhere (· == '\n') (wrap width record).text.toList =
    (splitWhere (· == '\n') record.toList).flatMap fun line ↦ (wrapLine width line).1
  added : ∀ line ∈ splitWhere (· == '\n') record.toList, ∀ piece ∈ (wrapLine width line).1.tail,
    IsContinuation piece
  code_fits : (wrap width record).warnings = [] →
    ∀ line ∈ splitWhere (· == '\n') (wrap width record).text.toList,
    Line.isComment (String.ofList line) = true ∨ fits width (codePart line) = true

/-- Wrapping changes only the layout of a record, and keeps its code within the width or says so. -/
theorem isFolded_of_tokenize {mode : LexMode} (hmode : mode ≠ .read) (width : Nat) {record : String}
    {ts : List Token} (h : tokenize mode record = .ok ts) : IsFolded mode width record ts where
  ends line _ := exists_rounds width line
  tokens := Lexer.exists_tokenize_of_breaks hmode (breaks_wrap width record) h
  lines_eq := splitWhere_wrap width record
  added _ _ := isContinuation_of_mem_tail
  code_fits hquiet _ := isComment_or_fits_of_mem_splitWhere hquiet

/-- A line is broken in front of its comment, which stays whole. -/
theorem isFolded_of_long_line : ∃ record ts, tokenize .cell record = .ok ts ∧
    (wrap 20 record).text = "1 0 -1 2 -3 4 -5 6\n     -7 8 $ long comment" ∧
      IsFolded .cell 20 record ts := by
  let record := "1 0 -1 2 -3 4 -5 6 -7 8 $ long comment"
  have hok : (tokenize .cell record).toBool = true := by decide +kernel
  cases htokens : tokenize .cell record with
  | error e =>
    rw [htokens] at hok
    cases hok
  | ok ts =>
    exact ⟨record, ts, htokens, by decide +kernel, isFolded_of_tokenize (by decide) 20 htokens⟩

end Wrap

end TransportDeck
