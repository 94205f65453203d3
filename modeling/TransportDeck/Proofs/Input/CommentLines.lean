import TransportDeck.Proofs.Input.Targets

/-!
# Comment lines

The reader and the lexer each have a rule for what a comment line is.  The lexer's is the stricter
one: only spaces may stand in front of the letter, and only an ASCII blank behind it.  Up to these
blanks the rules are the same.
-/

namespace TransportDeck

open Text

/-! ## The first token -/

namespace Lexer

variable {mode : LexMode} {margin : Option Nat} {p : Position} {c : Char}
  {cs rest : List Char} {ts : List Token}

/-- The kind of the first token that is no run of blanks. -/
def firstKind? (ts : List Token) : Option TokenKind := (ts.find? (·.kind != .space)).map (·.kind)

/-- A comment line starts with its letter. -/
theorem kind_eq_comment_iff {kind : TokenKind} {n : Nat}
    (h : lexeme? mode margin c cs = some (kind, n)) :
    kind = .comment ↔ startsComment margin c cs = true := by
  constructor
  · rintro rfl
    rcases mark_of_isComment h rfl with rfl | hstarts
    · cases h
    · exact hstarts
  · intro hstarts
    have hletter : (c == 'c' || c == 'C') = true := by
      rw [← Bool.not_eq_false]
      intro hletter
      rw [startsComment_eq_false hletter] at hstarts
      cases hstarts
    have hmarks : (c == '#') = false ∧ (c == '$') = false := by
      rw [Bool.or_eq_true, beq_iff_eq, beq_iff_eq] at hletter
      rcases hletter with rfl | rfl <;> exact ⟨rfl, rfl⟩
    rw [lexeme?, hmarks.1, hmarks.2, if_neg Bool.false_ne_true,
      if_neg Bool.false_ne_true, if_pos hstarts] at h
    exact (Prod.mk.inj (Option.some.inj h)).1.symm

theorem Cuts.firstKind?_of_startsSolid (h : Cuts mode margin p cs ts []) (hsolid : StartsSolid cs) :
    firstKind? ts = some .comment ↔
      ∃ c rest, cs = c :: rest ∧ startsComment margin c rest = true := by
  cases ts with
  | nil =>
    cases h
    simp [firstKind?]
  | cons t ts =>
    obtain ⟨kind, c, ds, cs', rfl, rfl, hlex, -⟩ := h.exists_of_cons
    have hkind : kind ≠ .space := fun hspace ↦ by
      have hblank := ((length_of_lexeme? hlex).2 hspace).1
      rw [hsolid c rfl] at hblank
      cases hblank
    have hfirst : firstKind? (⟨kind, String.ofList (c :: ds), .ofText p (c :: ds)⟩ :: ts) =
        some kind := by
      rw [firstKind?, List.find?_cons_of_pos (by simpa using hkind)]
      rfl
    rw [hfirst, Option.some_inj, kind_eq_comment_iff hlex]
    constructor
    · exact fun hstarts ↦ ⟨c, _, rfl, hstarts⟩
    · rintro ⟨c', rest, heq, hstarts⟩
      obtain ⟨rfl, rfl⟩ := List.cons.inj heq
      exact hstarts

/-- Blanks within a line only move the margin. -/
theorem isCommentLine_blanks {gap : List Char} (hgap : ∀ b ∈ gap, isAsciiBlank b = true)
    (hline : '\n' ∉ gap) (rest : List Char) :
    isCommentLine margin (gap ++ rest) = isCommentLine (marginAfter margin gap) rest := by
  refine isCommentLine_separators (fun b hb ↦ ⟨?_, ne_of_mem_of_not_mem hb hline⟩) rest
  rw [Card.separates, isBlank_of_isAsciiBlank (hgap b hb)]
  rfl

theorem isCommentLine_of_startsSolid (hsolid : StartsSolid cs) :
    isCommentLine margin cs = true ↔
      ∃ c rest, cs = c :: rest ∧ startsComment margin c rest = true := by
  cases cs with
  | nil => simp [isCommentLine]
  | cons c rest =>
    have hc : c ≠ ' ' := by
      rintro rfl
      cases hsolid ' ' rfl
    rw [isCommentLine_cons hc]
    constructor
    · exact fun hstarts ↦ ⟨c, rest, rfl, hstarts⟩
    · rintro ⟨c', rest', heq, hstarts⟩
      obtain ⟨rfl, rfl⟩ := List.cons.inj heq
      exact hstarts

/-- A line starts with a comment token if the letter of a comment is the first thing behind its
blanks. -/
theorem Cuts.firstKind?_iff_isCommentLine (h : Cuts mode margin p cs ts []) (hline : '\n' ∉ cs) :
    firstKind? ts = some .comment ↔ isCommentLine margin cs = true := by
  cases ts with
  | nil =>
    cases h
    simp [firstKind?, isCommentLine]
  | cons t ts =>
    obtain ⟨kind, c, ds, cs', rfl, rfl, hlex, hts⟩ := h.exists_of_cons
    by_cases hspace : kind = .space
    · -- The first token takes all the blanks, and what is cut behind it starts with none.
      subst hspace
      have hblanks := isAsciiBlank_of_mem_space h rfl
      rw [String.toList_ofList] at hblanks
      have hsolid : StartsSolid cs' := by
        have hlength := ((length_of_lexeme? hlex).2 rfl).2
        rw [List.length_cons, Nat.add_comm] at hlength
        exact stops_of_run (Nat.add_left_cancel hlength).symm
      have hfirst : firstKind? (⟨.space, String.ofList (c :: ds), .ofText p (c :: ds)⟩ :: ts) =
          firstKind? ts := by
        rw [firstKind?, List.find?_cons_of_neg (by simp)]
        rfl
      rw [hfirst, hts.firstKind?_of_startsSolid hsolid,
        isCommentLine_blanks hblanks fun hmem ↦ hline (List.mem_append_left _ hmem),
        isCommentLine_of_startsSolid hsolid]
    · have hsolid : StartsSolid (c :: ds ++ cs') := by
        rintro _ ⟨⟩
        rw [← Bool.not_eq_true]
        intro hblank
        rw [lexeme?_of_isAsciiBlank hblank] at hlex
        exact hspace (Prod.mk.inj (Option.some.inj hlex)).1.symm
      rw [h.firstKind?_of_startsSolid hsolid, isCommentLine_of_startsSolid hsolid]

end Lexer

/-! ## The two rules -/

namespace Line

/-- Only spaces indent the line, and the blank behind its first letter is an ASCII blank, if there
is one. -/
structure HasPlainBlanks (line : String) : Prop where
  indent : ∀ c ∈ line.toList.takeWhile Text.isBlank, c = ' '
  behind : ∀ c ∈ (line.toList.dropWhile Text.isBlank).tail.head?, Text.isBlank c = true →
    isAsciiBlank c = true

variable {n : Nat} {c : Char} {rest : List Char} {line : String}

/-- The reader's rule on a line that is indented with spaces. -/
theorem isComment_spaces (hline : line.toList = List.replicate n ' ' ++ c :: rest)
    (hc : Text.isBlank c = false) :
    isComment line =
      (decide (n < Limits.continuationColumns) && ((c == 'c' || c == 'C') && endsWord rest)) := by
  have hspaces : ∀ b ∈ List.replicate n ' ', Text.isBlank b = true := fun b hb ↦ by
    rw [List.eq_of_mem_replicate hb]
    rfl
  rw [isComment, hline, List.takeWhile_append_of_pos hspaces, List.dropWhile_append_of_pos hspaces,
    List.takeWhile_cons_of_neg (by simp [hc]), List.dropWhile_cons_of_neg (by simp [hc]),
    List.append_nil,
    byteSize_spaces]

theorem hasPlainBlanks_iff (hline : line.toList = List.replicate n ' ' ++ c :: rest)
    (hc : Text.isBlank c = false) :
    HasPlainBlanks line ↔ ∀ b ∈ rest.head?, Text.isBlank b = true → isAsciiBlank b = true := by
  have hspaces : ∀ b ∈ List.replicate n ' ', Text.isBlank b = true := fun b hb ↦ by
    rw [List.eq_of_mem_replicate hb]
    rfl
  have htake : line.toList.takeWhile Text.isBlank = List.replicate n ' ' := by
    rw [hline, List.takeWhile_append_of_pos hspaces, List.takeWhile_cons_of_neg (by simp [hc]),
      List.append_nil]
  have hdrop : line.toList.dropWhile Text.isBlank = c :: rest := by
    rw [hline, List.dropWhile_append_of_pos hspaces, List.dropWhile_cons_of_neg (by simp [hc])]
  constructor
  · intro h
    have hbehind := h.behind
    rwa [hdrop] at hbehind
  · refine fun h ↦ ⟨fun b hb ↦ ?_, by rwa [hdrop]⟩
    rw [htake] at hb
    exact List.eq_of_mem_replicate hb

theorem isCommentLine_iff_of_spaces (hline : line.toList = List.replicate n ' ' ++ c :: rest)
    (hc : Text.isBlank c = false) :
    Lexer.isCommentLine (some 0) line.toList = true ↔
      isComment line = true ∧ HasPlainBlanks line := by
  have hspaces : ∀ b ∈ List.replicate n ' ', isAsciiBlank b = true := fun b hb ↦ by
    rw [List.eq_of_mem_replicate hb]
    rfl
  have hspace : c ≠ ' ' := by
    rintro rfl
    cases hc
  have hends : Lexer.endsLine rest = true ↔
      endsWord rest = true ∧ ∀ b ∈ rest.head?, Text.isBlank b = true → isAsciiBlank b = true := by
    cases rest with
    | nil => simp [Lexer.endsLine, endsWord]
    | cons b rest =>
      have hblank : isAsciiBlank b = true → Text.isBlank b = true := isBlank_of_isAsciiBlank
      simp only [Lexer.endsLine, endsWord, List.head?_cons, Option.mem_some_iff, forall_eq']
      tauto
  rw [isComment_spaces hline hc, hasPlainBlanks_iff hline hc, hline,
    Lexer.isCommentLine_blanks hspaces (by simp), Lexer.marginAfter_spaces, Nat.zero_add,
    Lexer.isCommentLine_cons hspace]
  simp only [Lexer.startsComment, Bool.and_eq_true, hends]
  tauto

/-- The lexer's rule is the reader's with plain blanks. -/
theorem isCommentLine_iff : Lexer.isCommentLine (some 0) line.toList = true ↔
    isComment line = true ∧ HasPlainBlanks line := by
  constructor
  · intro h
    have hspaces : line.toList = List.replicate (Lexer.run (· == ' ') line.toList) ' ' ++
        line.toList.drop (Lexer.run (· == ' ') line.toList) := by
      have htake : line.toList.takeWhile (· == ' ') =
          List.replicate (Lexer.run (· == ' ') line.toList) ' ' :=
        List.eq_replicate_of_mem fun b hb ↦ by simpa using List.mem_takeWhile_imp hb
      rw [Lexer.drop_run, ← htake, List.takeWhile_append_dropWhile]
    cases hdrop : line.toList.drop (Lexer.run (· == ' ') line.toList) with
    | nil =>
      rw [Lexer.isCommentLine, hdrop] at h
      cases h
    | cons c rest =>
      rw [hdrop] at hspaces
      refine (isCommentLine_iff_of_spaces hspaces ?_).mp h
      -- The letter of a comment is no blank.
      simp only [Lexer.isCommentLine, hdrop] at h
      have hletter : (c == 'c' || c == 'C') = true := by
        rw [← Bool.not_eq_false]
        intro hletter
        rw [Lexer.startsComment_eq_false hletter] at h
        cases h
      rw [Bool.or_eq_true, beq_iff_eq, beq_iff_eq] at hletter
      rcases hletter with rfl | rfl <;> rfl
  · rintro ⟨hcomment, hplain⟩
    have hline := List.takeWhile_append_dropWhile (p := Text.isBlank) (l := line.toList)
    rw [List.eq_replicate_of_mem hplain.indent] at hline
    cases hrest : line.toList.dropWhile Text.isBlank with
    | nil =>
      rw [isComment, hrest, Bool.and_false] at hcomment
      cases hcomment
    | cons c rest =>
      rw [hrest] at hline
      have hhead := List.head?_dropWhile_not Text.isBlank line.toList
      rw [hrest] at hhead
      exact (isCommentLine_iff_of_spaces hline.symm (by simpa using hhead)).mpr ⟨hcomment, hplain⟩

variable {mode : LexMode} {ts : List Token}

/-- A line that is cut into tokens starts with a comment to the lexer exactly if it is a comment
line to the reader, and its blanks are plain. -/
theorem firstKind?_eq_comment_iff (hline : '\n' ∉ line.toList) (h : tokenize mode line = .ok ts) :
    Lexer.firstKind? ts = some .comment ↔ isComment line = true ∧ HasPlainBlanks line := by
  rw [(Lexer.tokenize_eq_ok_iff.mp h).1.firstKind?_iff_isCommentLine hline, isCommentLine_iff]

/-- An indented comment is one to both. -/
theorem firstKind?_eq_comment_of_indented :
    ∃ (line : String) (ts : List Token), line = "   C a # b" ∧ '\n' ∉ line.toList ∧
      tokenize .data line = .ok ts ∧ isComment line = true ∧
      Lexer.firstKind? ts = some .comment := by
  obtain ⟨ts, hts, -⟩ :=
    Except.exists_of_any (x := tokenize .data "   C a # b") (p := fun _ ↦ true) (by decide +kernel)
  have hspaces : "   C a # b".toList = List.replicate 3 ' ' ++ 'C' :: " a # b".toList := by decide
  have hplain : HasPlainBlanks "   C a # b" :=
    (hasPlainBlanks_iff hspaces rfl).mpr (by rintro _ ⟨⟩ -; rfl)
  exact ⟨_, ts, rfl, by decide, hts, by decide,
    (firstKind?_eq_comment_iff (by decide) hts).mpr ⟨by decide, hplain⟩⟩

/-- Behind a form feed a comment line is none to the lexer, which reads its words. -/
theorem firstKind?_ne_comment_of_form_feed : ∃ (line : String) (ts : List Token), line = "\x0cc a" ∧
    '\n' ∉ line.toList ∧ '\t' ∉ line.toList ∧ tokenize .cell line = .ok ts ∧ isComment line = true ∧
      Lexer.firstKind? ts = some .particle := by
  have hany : (tokenize .cell "\x0cc a").toOption.any (Lexer.firstKind? · == some .particle) =
      true := by
    decide +kernel
  obtain ⟨ts, hts, hkind⟩ := Except.exists_of_any hany
  exact ⟨_, ts, rfl, by decide, by decide, hts, by decide, beq_iff_eq.mp hkind⟩

end Line

end TransportDeck
