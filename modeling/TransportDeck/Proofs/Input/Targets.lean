import TransportDeck.Proofs.Deck.Comments
import TransportDeck.Proofs.Grammar.Requests
import TransportDeck.Proofs.Token.Relaying

/-!
# The files that cards ask for

The reader finds the file that a card asks for among the words between blanks, equals signs and
ampersands. The grammar finds it among the names of the tokens.  These are the same words as long as
no name has an ampersand in it and the blanks of the card are blanks for the lexer too.
-/

namespace TransportDeck

namespace Text

variable {p : Char → Bool} {cs : List Char}

/-- A separator in front of a text starts no word. -/
theorem wordsWhere_cons_of_pos {c : Char} (h : p c = true) (cs : List Char) :
    wordsWhere p (c :: cs) = wordsWhere p cs := by
  rw [wordsWhere, splitWhere, if_pos h]
  rfl

/-- A word ends where the text ends or the next separator stands. -/
theorem wordsWhere_append (h : ∀ c ∈ cs, p c = false) (hne : cs ≠ []) {rest : List Char}
    (hrest : ∀ c ∈ rest.head?, p c = true) :
    wordsWhere p (cs ++ rest) = cs :: wordsWhere p rest := by
  have hkept (ls : List (List Char)) :
      (cs :: ls).filter (!·.isEmpty) = cs :: ls.filter (!·.isEmpty) :=
    List.filter_cons_of_pos (by simpa using hne)
  cases rest with
  | nil => rw [List.append_nil, wordsWhere, splitWhere_of_forall h, hkept]; rfl
  | cons d rest =>
    have hd : p d = true := hrest d rfl
    rw [wordsWhere, splitWhere_append_cons h hd, hkept, wordsWhere_cons_of_pos hd, wordsWhere]

theorem byteSize_spaces (n : Nat) : byteSize (List.replicate n ' ') = n := by
  induction n with
  | zero => rfl
  | succ n ih =>
    change ' '.utf8Size + byteSize (List.replicate n ' ') = n + 1
    rw [ih, show ' '.utf8Size = 1 by decide, Nat.add_comm]

end Text

open Text

namespace Lexer

/-! ## Words as the lexer sees them -/

/-- Whether the lexer takes the line for a comment, behind `margin` spaces. -/
def isCommentLine (margin : Option Nat) (line : List Char) : Bool :=
  let spaces := run (· == ' ') line
  match line.drop spaces with
  | c :: cs => startsComment (margin.map (· + spaces)) c cs
  | [] => false

/-- The words of a line that is no comment. -/
def lineWords (margin : Option Nat) (line : List Char) : List (List Char) :=
  if isCommentLine margin line then [] else wordsWhere Card.separates (line.takeWhile (· != '$'))

/-- The words of a text whose first line starts behind `margin` spaces. -/
def textWords (margin : Option Nat) (cs : List Char) : List (List Char) :=
  match splitWhere (· == '\n') cs with
  | [] => []
  | line :: lines => lineWords margin line ++ lines.flatMap (lineWords (some 0))

variable {margin : Option Nat} {c : Char} {cs rest line : List Char}

@[simp] theorem isCommentLine_none (line : List Char) : isCommentLine none line = false := by
  unfold isCommentLine
  dsimp only
  split <;> rfl

/-- Whether a line is a comment is told at its first character that is no space. -/
theorem isCommentLine_cons (h : c ≠ ' ') :
    isCommentLine margin (c :: line) = startsComment margin c line := by
  have hrun : run (· == ' ') (c :: line) = 0 := by simp [run, h]
  have hmargin : (margin.map fun n ↦ n + 0) = margin := by cases margin <;> rfl
  rw [isCommentLine, hrun]
  exact congrArg (startsComment · c line) hmargin

/-- A space in front of a line moves the margin by one column. -/
theorem isCommentLine_space :
    isCommentLine margin (' ' :: line) = isCommentLine (margin.map (· + 1)) line := by
  have hrun : run (· == ' ') (' ' :: line) = run (· == ' ') line + 1 := by simp [run]
  have hmargin (k : Nat) : margin.map (· + (k + 1)) = (margin.map (· + 1)).map (· + k) := by
    rw [Option.map_map]
    exact congrArg (margin.map ·) (funext fun n ↦ by simp [Nat.add_assoc, Nat.add_comm k])
  rw [isCommentLine, isCommentLine, hrun, List.drop_succ_cons, hmargin]

/-- An empty line has no words. -/
theorem lineWords_nil (margin : Option Nat) : lineWords margin [] = [] := by
  cases margin <;> rfl

/-- The words of a text are those of its lines, one after the other. -/
theorem textWords_newline : textWords margin ('\n' :: cs) = textWords (some 0) cs := by
  obtain ⟨l, ls, hls⟩ := List.exists_cons_of_ne_nil (splitWhere_ne_nil (· == '\n') cs)
  rw [textWords, textWords, splitWhere, if_pos (by rfl), hls]
  dsimp only
  rw [lineWords_nil, List.nil_append, List.flatMap_cons]

/-- A separator in front of a line moves the margin as any character does. -/
theorem isCommentLine_separator (h : Card.separates c = true) (hnewline : c ≠ '\n') :
    isCommentLine margin (c :: line) = isCommentLine (marginStep margin c) line := by
  rw [marginStep, if_neg (by simpa using hnewline)]
  split_ifs with hspace
  · rw [beq_iff_eq.mp hspace, isCommentLine_space]
  · have hletter : (c == 'c' || c == 'C') = false := by
      refine Bool.eq_false_iff.mpr fun hc ↦ ?_
      rw [Bool.or_eq_true, beq_iff_eq, beq_iff_eq] at hc
      rcases hc with rfl | rfl <;> exact absurd h (by decide)
    rw [isCommentLine_cons (by simpa using hspace), isCommentLine_none,
      startsComment_eq_false hletter]

/-- Separators within a line only move the margin. -/
theorem isCommentLine_separators {gap : List Char}
    (h : ∀ d ∈ gap, Card.separates d = true ∧ d ≠ '\n') (rest : List Char) :
    isCommentLine margin (gap ++ rest) = isCommentLine (marginAfter margin gap) rest := by
  induction gap generalizing margin with
  | nil => rfl
  | cons d gap ih =>
    obtain ⟨⟨hd, hnewline⟩, hgap⟩ := List.forall_mem_cons.mp h
    rw [List.cons_append, isCommentLine_separator hd hnewline, ih hgap]
    rfl

/-- Separators only move the margin. -/
theorem textWords_separator (h : Card.separates c = true) (hnewline : c ≠ '\n') :
    textWords margin (c :: cs) = textWords (marginStep margin c) cs := by
  have hdollar : c ≠ '$' := by
    rintro rfl
    exact absurd h (by decide)
  have hline (l : List Char) : lineWords margin (c :: l) = lineWords (marginStep margin c) l := by
    rw [lineWords, lineWords, isCommentLine_separator h hnewline,
      List.takeWhile_cons_of_pos (by simpa using hdollar), wordsWhere_cons_of_pos h]
  obtain ⟨l, ls, hls⟩ := List.exists_cons_of_ne_nil (splitWhere_ne_nil (· == '\n') cs)
  rw [textWords, textWords, splitWhere, if_neg (by simpa using hnewline), hls]
  dsimp only
  rw [hline]

/-- So do blanks, over line ends too. -/
theorem textWords_blanks {bs : List Char} (h : ∀ b ∈ bs, isAsciiBlank b = true) :
    textWords margin (bs ++ cs) = textWords (marginAfter margin bs) cs := by
  induction bs generalizing margin with
  | nil => rfl
  | cons b bs ih =>
    have hb : isAsciiBlank b = true := h b List.mem_cons_self
    have hstep : textWords margin (b :: (bs ++ cs)) =
        textWords (marginStep margin b) (bs ++ cs) := by
      by_cases hnewline : b = '\n'
      · rw [hnewline, textWords_newline]
        rfl
      · refine textWords_separator ?_ hnewline
        rw [Card.separates, isBlank_of_isAsciiBlank hb]
        rfl
    rw [List.cons_append, hstep, ih fun d hd ↦ h d (List.mem_cons_of_mem _ hd)]
    rfl

/-- What ends a line without a word in it. -/
theorem textWords_comment {ds : List Char} (hline : lineWords margin ds = []) (hds : '\n' ∉ ds)
    (hrest : ∀ c ∈ rest.head?, c = '\n') (margin' : Option Nat) :
    textWords margin (ds ++ rest) = textWords margin' rest := by
  have hfree : ∀ d ∈ ds, (d == '\n') = false := fun d hd ↦ by
    rw [beq_eq_false_iff_ne]
    rintro rfl
    exact hds hd
  cases rest with
  | nil =>
    rw [List.append_nil, textWords, splitWhere_of_forall hfree]
    dsimp only
    rw [hline, textWords, splitWhere]
    dsimp only
    rw [lineWords_nil]
  | cons c rest =>
    obtain rfl : c = '\n' := hrest c rfl
    rw [textWords_newline, textWords, splitWhere_append_cons hfree (by rfl)]
    dsimp only
    rw [hline, List.nil_append]
    obtain ⟨l, ls, hls⟩ := List.exists_cons_of_ne_nil (splitWhere_ne_nil (· == '\n') rest)
    rw [textWords, hls]
    dsimp only
    rw [List.flatMap_cons]

/-- A line ends where its text does. -/
theorem endsLine_takeWhile (cs : List Char) :
    endsLine (cs.takeWhile fun d ↦ !(d == '\n')) = endsLine cs := by
  cases cs with
  | nil => rfl
  | cons d cs =>
    by_cases hd : d = '\n'
    · rw [hd]
      rfl
    · rw [List.takeWhile_cons_of_pos (by simpa using hd)]
      rfl

/-- A comment is seen from its own line. -/
theorem startsComment_takeWhile (margin : Option Nat) (c : Char) (cs : List Char) :
    startsComment margin c (cs.takeWhile fun d ↦ !(d == '\n')) = startsComment margin c cs := by
  cases margin with
  | none => rfl
  | some n =>
    exact congrArg (((c == 'c' || c == 'C') && decide (n < Limits.continuationColumns)) && ·)
      (endsLine_takeWhile cs)

/-- A word goes up to a separator or an inline comment. -/
theorem textWords_word {ds : List Char} (hopens : startsComment margin c (ds ++ rest) = false)
    (hds : ∀ d ∈ c :: ds, Card.separates d = false ∧ d ≠ '$')
    (hrest : ∀ d ∈ rest.head?, Card.separates d = true ∨ d = '$') :
    textWords margin (c :: ds ++ rest) = (c :: ds) :: textWords none rest := by
  have hspace : c ≠ ' ' := by
    rintro rfl
    exact absurd (hds ' ' List.mem_cons_self).1 (by decide)
  have hfree : ∀ d ∈ c :: ds, (d == '\n') = false := fun d hd ↦ by
    rw [beq_eq_false_iff_ne]
    rintro rfl
    exact absurd (hds '\n' hd).1 (by decide)
  obtain ⟨ls, hls, hsplit⟩ := exists_splitWhere_append hfree rest
  have hcomment :
      isCommentLine margin (c :: ds ++ rest.takeWhile fun d ↦ !(d == '\n')) = false := by
    have hopens' := startsComment_takeWhile margin c (ds ++ rest)
    rw [hopens, List.takeWhile_append_of_pos fun d hd ↦ by
      rw [hfree d (List.mem_cons_of_mem _ hd)]; rfl] at hopens'
    rwa [List.cons_append, isCommentLine_cons hspace]
  have hline : lineWords margin (c :: ds ++ rest.takeWhile fun d ↦ !(d == '\n')) =
      (c :: ds) :: lineWords none (rest.takeWhile fun d ↦ !(d == '\n')) := by
    rw [lineWords, hcomment, lineWords, isCommentLine_none, if_neg Bool.false_ne_true,
      if_neg Bool.false_ne_true,
      List.takeWhile_append_of_pos (by simpa using fun d hd ↦ (hds d hd).2)]
    refine wordsWhere_append (fun d hd ↦ (hds d hd).1) (List.cons_ne_nil _ _) fun d hd ↦ ?_
    rw [List.head?_takeWhile, List.head?_takeWhile, Option.mem_def, Option.filter_eq_some_iff,
      Option.filter_eq_some_iff] at hd
    exact (hrest d hd.1.1).resolve_right (by simpa using hd.2)
  rw [textWords, textWords, hsplit, hls]
  dsimp only
  rw [hline, List.cons_append]

/-! ## Tokens of requests -/

/-- What goes on in a word of a record that names a file. -/
def isNameChar (c : Char) : Bool := !isAsciiBlank c && c != '=' && c != '$'

/-- A lexeme of a record that names a file, and the text behind it. -/
inductive IsReadLexeme (margin : Option Nat) : List Char → List Char → TokenKind → Prop where
  | complement {rest : List Char} : IsReadLexeme margin ['#'] rest .complement
  | comment {ds rest : List Char} {kind : TokenKind} (isComment : kind.isComment = true)
      (wordless : lineWords margin ds = []) (inLine : '\n' ∉ ds)
        (ends : ∀ c ∈ rest.head?, c = '\n') :
      IsReadLexeme margin ds rest kind
  | blanks {bs rest : List Char} (blank : ∀ b ∈ bs, isAsciiBlank b = true) :
      IsReadLexeme margin bs rest .space
  | mark {c : Char} {rest : List Char} {kind : TokenKind}
      (isMark : c = '=' ∧ kind = .equals ∨ c = '&' ∧ kind = .ampersand) :
        IsReadLexeme margin [c] rest kind
  | word {c : Char} {ds rest : List Char} (opens : startsComment margin c (ds ++ rest) = false)
      (inWord : ∀ d ∈ c :: ds, isNameChar d = true)
        (ends : ∀ d ∈ rest.head?, isNameChar d = false) :
      IsReadLexeme margin (c :: ds) rest
        (if Vocabulary.isKeyword (String.ofList (c :: ds)) then .keyword else .fileName)

/-- The name of a file is cut from a request as one lexeme of requests. -/
theorem isReadLexeme_fileLexeme (hopens : startsComment margin c cs = false)
    (hblank : isAsciiBlank c = false) (hdollar : c ≠ '$') {kind : TokenKind} {n : Nat}
    (h : fileLexeme c cs = (kind, n)) :
    IsReadLexeme margin ((c :: cs).take n) ((c :: cs).drop n) kind := by
  unfold fileLexeme at h
  dsimp only at h
  by_cases hequals : c = '='
  · rw [if_pos (beq_iff_eq.mpr hequals)] at h
    obtain ⟨rfl, rfl⟩ := Prod.mk.inj h
    exact .mark (.inl ⟨hequals, rfl⟩)
  rw [if_neg (by simpa using hequals)] at h
  by_cases hampersand : (c == '&' && endsLine cs) = true
  · rw [if_pos hampersand] at h
    obtain ⟨rfl, rfl⟩ := Prod.mk.inj h
    exact .mark (.inr ⟨by simp_all, rfl⟩)
  rw [if_neg hampersand] at h
  have hword : IsReadLexeme margin (c :: cs.takeWhile isNameChar) (cs.dropWhile isNameChar)
      (if Vocabulary.isKeyword (String.ofList (c :: cs.takeWhile isNameChar)) then
      .keyword else .fileName) := by
    refine .word (by rwa [List.takeWhile_append_dropWhile]) ?_ fun d hd ↦ ?_
    · rw [List.forall_mem_cons]
      exact ⟨by simp [isNameChar, hblank, hequals, hdollar], fun d ↦ List.mem_takeWhile_imp⟩
    · have hhead := List.head?_dropWhile_not isNameChar cs
      rw [Option.mem_def.mp hd] at hhead
      simpa using hhead
  have hcut : (c :: cs).take (1 + run isNameChar cs) = c :: cs.takeWhile isNameChar := by
    rw [Nat.add_comm, List.take_succ_cons, take_run]
  have hrest : (c :: cs).drop (1 + run isNameChar cs) = cs.dropWhile isNameChar := by
    rw [Nat.add_comm, List.drop_succ_cons, drop_run]
  change (if Vocabulary.isKeyword (String.ofList ((c :: cs).take (1 + run isNameChar cs))) =
    true then
    (TokenKind.keyword, 1 + run isNameChar cs) else (.fileName, 1 + run isNameChar cs)) =
    (kind, n) at h
  rw [hcut] at h
  split_ifs at h hword with hkeyword
  all_goals
    obtain ⟨rfl, rfl⟩ := Prod.mk.inj h
    rwa [hcut, hrest]

/-- Every lexeme of the request mode is one of requests. -/
theorem isReadLexeme_of_lexeme? {kind : TokenKind} {n : Nat}
    (h : lexeme? .read margin c cs = some (kind, n)) :
    IsReadLexeme margin ((c :: cs).take n) ((c :: cs).drop n) kind := by
  have hline {d : Char} (hd : d ≠ '\n')
    (hwordless : lineWords margin (d :: cs.takeWhile (· != '\n')) = [])
      {k : TokenKind} (hk : k.isComment = true) :
      IsReadLexeme margin ((d :: cs).take (1 + toLineEnd cs))
        ((d :: cs).drop (1 + toLineEnd cs)) k := by
    rw [Nat.add_comm, List.take_succ_cons, List.drop_succ_cons, toLineEnd, take_run, drop_run]
    refine .comment hk hwordless ?_ fun e he ↦ ?_
    · rw [List.mem_cons, not_or]
      exact ⟨hd.symm, fun hmem ↦ absurd (List.mem_takeWhile_imp hmem) (by decide)⟩
    · have hhead := List.head?_dropWhile_not (· != '\n') cs
      rw [Option.mem_def.mp he] at hhead
      simpa using hhead
  unfold lexeme? at h
  split_ifs at h with hmark hdollar hcomment hblank
  · obtain ⟨rfl, rfl⟩ := Prod.mk.inj (Option.some.inj h)
    obtain rfl := beq_iff_eq.mp hmark
    exact .complement
  · obtain ⟨rfl, rfl⟩ := Prod.mk.inj (Option.some.inj h)
    obtain rfl := beq_iff_eq.mp hdollar
    refine hline (by decide) ?_ rfl
    rw [lineWords]
    split_ifs <;> rfl
  · obtain ⟨rfl, rfl⟩ := Prod.mk.inj (Option.some.inj h)
    have hletter : c = 'c' ∨ c = 'C' := by
      by_contra hother
      rw [startsComment_eq_false (by simpa using hother)] at hcomment
      cases hcomment
    refine hline (by rcases hletter with rfl | rfl <;> decide) ?_ rfl
    rw [lineWords, isCommentLine_cons (by rcases hletter with rfl | rfl <;> decide)]
    exact if_pos ((startsComment_takeWhile margin c cs).trans hcomment)
  · obtain ⟨rfl, rfl⟩ := Prod.mk.inj (Option.some.inj h)
    rw [Nat.add_comm, List.take_succ_cons, List.drop_succ_cons, take_run, drop_run]
    refine .blanks ?_
    rw [List.forall_mem_cons]
    exact ⟨hblank, fun _ ↦ List.mem_takeWhile_imp⟩
  · exact isReadLexeme_fileLexeme (by simpa using hcomment) (by simpa using hblank)
      (by simpa using hdollar) (Option.some.inj h)
  · contradiction

/-! ## Words and names -/

/-- A lexeme of requests makes a token of requests. -/
theorem IsReadLexeme.inRequest {ds : List Char} {kind : TokenKind}
    (h : IsReadLexeme margin ds rest kind) (span : Span) :
    (⟨kind, String.ofList ds, span⟩ : Token).InRequest := by
  cases h with
  | complement =>
    exact ⟨rfl, fun _ ↦ iff_of_false (show ¬ Vocabulary.isKeyword "#" = true by decide) (by simp)⟩
  | comment isComment =>
    cases kind <;> cases isComment <;> exact ⟨rfl, fun h ↦ by cases h⟩
  | blanks => exact ⟨rfl, fun h ↦ by cases h⟩
  | mark isMark =>
    obtain ⟨rfl, rfl⟩ | ⟨rfl, rfl⟩ := isMark
    · exact ⟨rfl, fun _ ↦ iff_of_false (show ¬ Vocabulary.isKeyword "=" = true by decide) (by simp)⟩
    · exact ⟨rfl, fun h ↦ by cases h⟩
  | word =>
    split_ifs with hkeyword
    · exact ⟨rfl, fun _ ↦ iff_of_true hkeyword rfl⟩
    · exact ⟨rfl, fun _ ↦ iff_of_false hkeyword (by simp)⟩

variable {p : Position} {left : List Char} {ts : List Token}

/-- All tokens that are cut in the request mode are tokens of requests. -/
theorem Cuts.inRequest (h : Cuts .read margin p cs ts left) : InRequest ts := by
  induction h with
  | done => simp [InRequest]
  | token lexeme fits rest ih =>
    rw [InRequest, List.forall_mem_cons]
    exact ⟨(isReadLexeme_of_lexeme? lexeme).inRequest _, ih⟩

/-- The blanks of the text are blanks for the lexer too. -/
def HasLexedBlanks (cs : List Char) : Prop := ∀ c ∈ cs, isBlank c = true → isAsciiBlank c = true

/-- A lexeme is a word of the text if it is a name, and otherwise it separates words. -/
theorem IsReadLexeme.textWords_eq {ds : List Char} {kind : TokenKind}
    (h : IsReadLexeme margin ds rest kind) (hblanks : HasLexedBlanks ds)
    (hplain : kind.isName = true → kind ≠ .complement ∧ '&' ∉ ds) : textWords margin (ds ++ rest) =
      (if kind.isName then [ds] else []) ++ textWords (marginAfter margin ds) rest := by
  cases h with
  | complement => exact absurd rfl (hplain rfl).1
  | comment isComment wordless inLine ends =>
    have hname : kind.isName = false := by cases kind <;> first | rfl | cases isComment
    rw [hname, if_neg Bool.false_ne_true, List.nil_append]
    exact textWords_comment wordless inLine ends _
  | blanks blank => exact textWords_blanks blank
  | mark isMark =>
    obtain ⟨rfl, rfl⟩ | ⟨rfl, rfl⟩ := isMark
    · exact textWords_separator rfl (by decide)
    · exact textWords_separator rfl (by decide)
  | @word c ds _ opens inWord ends =>
    have hname : ∀ d ∈ c :: ds, isAsciiBlank d = false ∧ d ≠ '=' ∧ d ≠ '$' := fun d hd ↦ by
      simpa [isNameChar, and_assoc] using inWord d hd
    have hnewline : '\n' ∉ c :: ds := fun hmem ↦ absurd (hname _ hmem).1 (by decide)
    obtain ⟨hc, hds⟩ := not_or.mp (mt List.mem_cons.mpr hnewline)
    have hspace : c ≠ ' ' := by
      rintro rfl
      exact absurd (hname ' ' List.mem_cons_self).1 (by decide)
    have hmargin : marginAfter margin (c :: ds) = none := by
      rw [marginAfter, List.foldl_cons, marginStep, if_neg (by simpa using Ne.symm hc),
        if_neg (by simpa using hspace)]
      exact marginAfter_none hds
    have hisName : (if Vocabulary.isKeyword (String.ofList (c :: ds)) = true then TokenKind.keyword
        else .fileName).isName = true := by
      split_ifs <;> rfl
    have hseparates : ∀ d ∈ c :: ds, Card.separates d = false ∧ d ≠ '$' := fun d hd ↦ by
      obtain ⟨hblank, hequals, hdollar⟩ := hname d hd
      have hblank' : isBlank d = false := by
        refine Bool.eq_false_iff.mpr fun h ↦ ?_
        rw [hblanks d hd h] at hblank
        cases hblank
      have hampersand : d ≠ '&' := by
        rintro rfl
        exact (hplain hisName).2 hd
      simp [Card.separates, hblank', hequals, hampersand, hdollar]
    rw [hmargin, hisName, if_pos rfl, List.singleton_append]
    refine textWords_word opens hseparates fun d hd ↦ ?_
    by_cases hdollar : d = '$'
    · exact .inr hdollar
    · have hend : isAsciiBlank d = true ∨ d = '=' := by
        have := ends d hd
        simp only [isNameChar, Bool.and_eq_false_iff, Bool.not_eq_false',
          bne_eq_false_iff_eq] at this
        simpa [hdollar] using this
      refine .inl ?_
      rw [Card.separates]
      rcases hend with hblank | rfl
      · rw [isBlank_of_isAsciiBlank hblank]
        rfl
      · rfl

/-- The words of the text are the names of its tokens, if no ampersand is in them. -/
theorem Cuts.textWords_eq (h : Cuts .read margin p cs ts []) (hblanks : HasLexedBlanks cs)
    (hplain : ∀ t ∈ namesOf ts, t.kind ≠ .complement ∧ '&' ∉ t.text.toList) :
    textWords margin cs = (namesOf ts).map (·.text.toList) := by
  generalize hleft : ([] : List Char) = left at h
  induction h with
  | done =>
    rw [← hleft, textWords, splitWhere]
    dsimp only
    rw [lineWords_nil]
    rfl
  | @token margin p c cs left kind n ts lexeme fits rest ih =>
    have hcut : c :: cs = (c :: cs).take n ++ (c :: cs).drop n := (List.take_append_drop ..).symm
    obtain ⟨hblanks₁, hblanks₂⟩ : HasLexedBlanks ((c :: cs).take n) ∧
        HasLexedBlanks ((c :: cs).drop n) :=
      ⟨fun d hd ↦ hblanks d (List.mem_of_mem_take hd), fun d hd ↦
        hblanks d (List.mem_of_mem_drop hd)⟩
    have hnames :
      namesOf (⟨kind, String.ofList ((c :: cs).take n), .ofText p ((c :: cs).take n)⟩ :: ts) =
        (if kind.isName then
        [⟨kind, String.ofList ((c :: cs).take n), .ofText p ((c :: cs).take n)⟩] else []) ++
          namesOf ts := by
      rw [namesOf, List.filter_cons]
      split_ifs <;> rfl
    rw [hnames, List.forall_mem_append] at hplain
    nth_rewrite 1 [hcut]
    rw [(isReadLexeme_of_lexeme? lexeme).textWords_eq hblanks₁ fun hname ↦ ?_,
      ih hblanks₂ hplain.2 hleft, hnames, List.map_append]
    · congr 1
      split_ifs <;> simp
    · rw [if_pos hname, List.forall_mem_singleton] at hplain
      simpa using hplain.1

end Lexer

/-! ## Requests -/

/-- The lexer sees the line as the reader does: it is indented with spaces, and what separates words
for the reader separates tokens. -/
structure Line.IsLegible (line : String) : Prop where
  unbroken : '\n' ∉ line.toList
  indent : ∀ c ∈ line.toList.takeWhile Text.isBlank, c = ' '
  blanks : Lexer.HasLexedBlanks line.toList

namespace Line.IsLegible

variable {line : String}

instance : Decidable (IsLegible line) :=
  decidable_of_iff ('\n' ∉ line.toList ∧
    (line.toList.takeWhile Text.isBlank).all (· == ' ') = true ∧
    (line.toList.all fun c ↦ !Text.isBlank c || isAsciiBlank c) = true) <| by
    simp only [List.all_eq_true, beq_iff_eq, Bool.or_eq_true, Bool.not_eq_true',
      ← Bool.not_eq_true, ← imp_iff_not_or]
    exact ⟨fun ⟨h, h', h''⟩ ↦ ⟨h, h', h''⟩, fun ⟨h, h', h''⟩ ↦ ⟨h, h', h''⟩⟩

/-- A legible line is a comment for the lexer if and only if it is one for the reader. -/
theorem isCommentLine_eq (h : IsLegible line) :
    Lexer.isCommentLine (some 0) line.toList = isComment line := by
  obtain ⟨n, hindent⟩ : ∃ n, line.toList.takeWhile Text.isBlank = List.replicate n ' ' :=
    ⟨_, List.eq_replicate_of_mem h.indent⟩
  have hline := List.takeWhile_append_dropWhile (p := Text.isBlank) (l := line.toList)
  have hspaces (m n : Nat) (rest : List Char) :
    Lexer.isCommentLine (some m) (List.replicate n ' ' ++ rest) =
      Lexer.isCommentLine (some (m + n)) rest := by
    induction n generalizing m with
    | zero => rfl
    | succ n ih =>
      rw [List.replicate_succ, List.cons_append, Lexer.isCommentLine_space, Option.map_some, ih,
        Nat.add_right_comm, Nat.add_assoc]
  have hhead := List.head?_dropWhile_not Text.isBlank line.toList
  have hblanks : Lexer.HasLexedBlanks (line.toList.dropWhile Text.isBlank) :=
    fun c hc ↦ h.blanks c (List.dropWhile_subset _ hc)
  unfold isComment
  dsimp only
  rw [hindent, byteSize_spaces]
  rw [hindent] at hline
  conv_lhs => rw [← hline]
  rw [hspaces, Nat.zero_add]
  generalize line.toList.dropWhile Text.isBlank = rest at hhead hblanks ⊢
  cases rest with
  | nil => rw [Bool.and_false]; rfl
  | cons d rest =>
    have hsolid : Text.isBlank d = false := by simpa using hhead
    have hspace : d ≠ ' ' := by
      rintro rfl
      exact absurd hsolid (by decide)
    have hends : Lexer.endsLine rest = endsWord rest := by
      cases rest with
      | nil => rfl
      | cons e rest =>
        exact Bool.eq_iff_iff.mpr ⟨isBlank_of_isAsciiBlank, hblanks e (by simp)⟩
    rw [Lexer.isCommentLine_cons hspace]
    change ((d == 'c' || d == 'C') && decide (n < Limits.continuationColumns) &&
      Lexer.endsLine rest) = _
    rw [hends, Bool.and_comm (d == 'c' || d == 'C'), Bool.and_assoc]

/-- The words of a legible line, as the lexer sees them, are those in front of its `$`. -/
theorem lineWords_eq (h : IsLegible line) : Lexer.lineWords (some 0) line.toList =
    if isComment line then [] else wordsWhere Card.separates (code line) := by
  rw [Lexer.lineWords, h.isCommentLine_eq]
  rfl

end Line.IsLegible

/-- Lines below each other have blanks of the lexer if each of them has. -/
theorem Lexer.HasLexedBlanks.intercalate {ls : List String}
    (h : ∀ l ∈ ls, HasLexedBlanks l.toList) : HasLexedBlanks ("\n".intercalate ls).toList := by
  induction ls with
  | nil => simp [HasLexedBlanks]
  | cons l ls ih =>
    cases ls with
    | nil => simpa using h l
    | cons m ls =>
      rw [String.intercalate_cons_cons, String.toList_append, String.toList_append]
      intro c hc hblank
      rcases List.mem_append.mp hc with hc | hc
      · rcases List.mem_append.mp hc with hc | hc
        · exact h l List.mem_cons_self c hc hblank
        · rw [List.mem_singleton.mp hc]
          rfl
      · exact ih (fun k hk ↦ h k (List.mem_cons_of_mem _ hk)) c hc hblank

namespace Card

/-- The words of a card, as the lexer sees them, are those that the reader looks at. -/
theorem textWords_eq_codeWords {c : Card} (h : ∀ l ∈ c.lines, Line.IsLegible l) :
    (Lexer.textWords (some 0) c.text.toList).map String.ofList = c.codeWords := by
  have hwords : ∀ ls : List String, (∀ l ∈ ls, Line.IsLegible l) →
      (ls.flatMap fun l ↦ Lexer.lineWords (some 0) l.toList).map String.ofList =
        (ls.filter (!Line.isComment ·)).flatMap fun l ↦
          (wordsWhere separates (Line.code l)).map String.ofList := by
    intro ls hls
    induction ls with
    | nil => rfl
    | cons l ls ih =>
      obtain ⟨hl, hls⟩ := List.forall_mem_cons.mp hls
      rw [List.flatMap_cons, List.map_append, ih hls, hl.lineWords_eq]
      cases hcomment : Line.isComment l with
      | true => rw [List.filter_cons_of_neg (by simp [hcomment])]; rfl
      | false => rw [List.filter_cons_of_pos (by simp [hcomment])]; rfl
  rw [codeWords, codeLines, ← hwords c.lines h, text]
  congr 1
  by_cases hne : c.lines = []
  · rw [hne]
    rfl
  · rw [Lexer.textWords, splitWhere_intercalate hne fun l hl ↦ (h l hl).unbroken]
    cases hlines : c.lines with
    | nil => exact absurd hlines hne
    | cons l ls =>
      rw [List.map_cons, List.flatMap_cons]
      dsimp only
      rw [List.flatMap_map]

/-- No keyword has an ampersand in it. -/
theorem not_mem_of_isKeyword {text : String} (h : Vocabulary.isKeyword text = true) :
    '&' ∉ text.toList := fun hmem ↦ by
  obtain ⟨word, hword, hsame⟩ := List.any_eq_true.mp h
  have hmem' : Char.toLower '&' ∈ lower text.toList := List.mem_map_of_mem hmem
  rw [← beq_iff_eq.mp hsame] at hmem'
  have hall : ∀ w ∈ Vocabulary.keywords, Char.toLower '&' ∉ lower w.toList := by decide
  exact hall word hword hmem'

/-- The reader includes the file that a request names, if its words are those of the lexer. -/
theorem target?_eq_of_parse {c : Card} {r : ReadRecord} {f : String}
    (hlines : ∀ l ∈ c.lines, Line.IsLegible l) (hjoined : ∀ s ∈ r.parameters.texts, '&' ∉ s.toList)
    (h : c.parse = .ok (.read r)) (hfile : r.file? = some f) : c.target? = some f := by
  obtain ⟨hread, hparse⟩ := parse_of_read h
  obtain ⟨ts, hts, hnamed⟩ := Grammar.exists_tokens_of_parse hparse
  have hcuts : Lexer.Cuts .read (some 0) .start c.text.toList ts [] := by
    have hcuts := Lexer.cuts_tokensFrom .read (some 0) .start 0 c.text.toList
    rwa [show Lexer.tokensFrom .read (some 0) .start 0 c.text.toList = .ok ts from hts] at hcuts
  have hrequest := hcuts.inRequest
  have hblanks : Lexer.HasLexedBlanks c.text.toList := .intercalate fun l hl ↦ (hlines l hl).blanks
  have hplain : ∀ t ∈ namesOf ts, t.kind ≠ .complement ∧ '&' ∉ t.text.toList := fun t ht ↦ by
    rcases (hnamed hrequest).kinds hrequest t ht with hkind | ⟨hkind, hmem⟩
    · refine ⟨by simp [hkind], not_mem_of_isKeyword ?_⟩
      exact ((hrequest t (List.mem_of_mem_filter ht)).keyword
        (by rw [Token.isLayout, hkind]; rfl)).mpr hkind
    · exact ⟨by simp [hkind], hjoined t.text hmem⟩
  rw [target?, if_pos hread, ← textWords_eq_codeWords hlines, hcuts.textWords_eq hblanks hplain,
    List.map_map]
  rw [← (hnamed hrequest).fileIn?_eq hrequest hfile]
  exact congrArg fileIn? (List.map_congr_left fun t _ ↦ String.ofList_toList)

/-- A request that goes on in its second line names its file there. -/
theorem target?_of_continued :
    ∃ (c : Card) (r : ReadRecord) (f : String), (∀ l ∈ c.lines, Line.IsLegible l) ∧
      (∀ s ∈ r.parameters.texts, '&' ∉ s.toList) ∧ c.parse = .ok (.read r) ∧
      r.file? = some f ∧ c.target? = some f := by
  let c : Card := ⟨.surface, ["read &", "c file=b", "     file = a.txt $ file=c"], "deck.i", 1, 0⟩
  have hany : c.parse.toOption.any (fun
      | .read r => r.file? == some "a.txt" && r.parameters.texts.all (!·.toList.contains '&')
      | _ => false) = true := by
    decide +kernel
  obtain ⟨record, hparse, hany⟩ := Except.exists_of_any hany
  cases record with
  | read r =>
    rw [Bool.and_eq_true, beq_iff_eq, List.all_eq_true] at hany
    have hlines : ∀ l ∈ c.lines, Line.IsLegible l := by decide
    have hjoined : ∀ s ∈ r.parameters.texts, '&' ∉ s.toList := by simpa using hany.2
    exact ⟨c, r, "a.txt", hlines, hjoined, hparse, hany.1,
      target?_eq_of_parse hlines hjoined hparse hany.1⟩
  | _ => cases hany

/-- An ampersand inside a name ends it for the reader, but not for the lexer. -/
theorem target?_ne_of_joined : ∃ (c : Card) (r : ReadRecord) (f : String), c.parse = .ok (.read r) ∧
    r.file? = some f ∧ c.target? ≠ some f := by
  let c : Card := ⟨.cell, ["read file=a&b"], "deck.i", 1, 0⟩
  have hany : c.parse.toOption.any (fun
      | .read r => r.file? == some "a&b"
      | _ => false) = true := by
    decide +kernel
  obtain ⟨record, hparse, hany⟩ := Except.exists_of_any hany
  cases record with
  | read r => exact ⟨c, r, "a&b", hparse, beq_iff_eq.mp hany, by decide⟩
  | _ => cases hany

end Card

end TransportDeck
