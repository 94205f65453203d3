import TransportDeck.Proofs.Deck.Reread

/-!
# Comments and cards

Comments are meant to say nothing about where a card ends.  Reading takes two marks from whole
lines, though: whether a line ends in ` &`, and whether `#` stands in its first columns.  A change
of comments that leaves these marks as they are leaves the cards as they are, up to their comments.
-/

namespace TransportDeck

open Text

/-! ## Lines up to their comments -/

namespace Line

/-- The lines differ at most behind the `$` that both have. -/
def SameCode (line line' : String) : Prop :=
  line' = line ∨ code line' = code line ∧ '$' ∈ line.toList ∧ '$' ∈ line'.toList

instance (line line' : String) : Decidable (SameCode line line') :=
  inferInstanceAs (Decidable (_ ∨ _))

/-- The lines differ in a comment at most. -/
def SameButComment (line line' : String) : Prop :=
  SameCode line line' ∨ isComment line = true ∧ isComment line' = true

instance (line line' : String) : Decidable (SameButComment line line') :=
  inferInstanceAs (Decidable (_ ∨ _))

variable {line line' : String}

/-- A line with a dollar sign is its code, the sign and a rest. -/
theorem toList_eq_code_append (h : '$' ∈ line.toList) :
    ∃ rest, line.toList = code line ++ '$' :: rest := by
  have hne : line.toList.dropWhile (· != '$') ≠ [] := fun hnil ↦ by
    simpa using List.dropWhile_eq_nil_iff.mp hnil '$' h
  obtain ⟨c, rest, hrest⟩ := List.exists_cons_of_ne_nil hne
  have hc := List.head_dropWhile_not (· != '$') hne
  simp only [hrest, List.head_cons, bne_eq_false_iff_eq] at hc
  refine ⟨rest, ?_⟩
  rw [← hc, ← hrest, code, List.takeWhile_append_dropWhile]

/-- The blanks at the end of a line belong to its comment. -/
theorem trimEnd_eq_code_append (h : '$' ∈ line.toList) :
    ∃ rest, trimEnd line.toList = code line ++ '$' :: rest := by
  obtain ⟨rest, hrest⟩ := toList_eq_code_append h
  refine ⟨trimEnd rest, ?_⟩
  rw [hrest, trimEnd_append_of_solid rfl]
  cases hblank : allBlank rest with
  | true =>
    rw [trimEnd_eq_nil_iff.mpr hblank, ← List.singleton_append, trimEnd_append_of_allBlank hblank]
    rfl
  | false =>
    rw [← List.singleton_append, trimEnd_append_of_solid hblank]
    rfl

/-- What stands in front of the first dollar sign is the code. -/
theorem code_ofList {cs : List Char} (h : '$' ∉ cs) (rest : List Char) :
    code (String.ofList (cs ++ '$' :: rest)) = cs := by
  rw [code, String.toList_ofList, List.takeWhile_append, List.takeWhile_eq_self_iff.mpr, if_pos rfl]
  · simp
  · intro c hc
    rw [bne_iff_ne]
    rintro rfl
    exact h hc

theorem not_mem_code (line : String) : '$' ∉ code line := fun h ↦ by
  simpa using List.mem_takeWhile_imp h

namespace SameCode

theorem refl (line : String) : SameCode line line := .inl rfl

theorem code_eq (h : SameCode line line') : code line' = code line := by
  rcases h with rfl | ⟨hcode, -, -⟩
  · rfl
  · exact hcode

/-- A property of lines that depends on what stands up to the first `$`. -/
theorem eq_of {α : Type} {f : String → α} (h : SameCode line line')
    (hf : ∀ cs rest rest', '$' ∉ cs → f (String.ofList (cs ++ '$' :: rest)) =
      f (String.ofList (cs ++ '$' :: rest'))) : f line' = f line := by
  rcases h with rfl | ⟨hcode, hmem, hmem'⟩
  · rfl
  · obtain ⟨rest, hrest⟩ := toList_eq_code_append hmem
    obtain ⟨rest', hrest'⟩ := toList_eq_code_append hmem'
    rw [← String.ofList_toList (s := line), ← String.ofList_toList (s := line'), hrest,
      hrest', hcode]
    exact hf _ _ _ (not_mem_code line)

theorem isComment_eq (h : SameCode line line') : isComment line' = isComment line := by
  refine h.eq_of fun cs rest rest' _ ↦ ?_
  simp only [isComment, String.toList_ofList, List.takeWhile_append, List.dropWhile_append]
  cases hcs : cs.dropWhile Text.isBlank with
  | nil => simp [show Text.isBlank '$' = false from by decide]
  | cons d ds => cases ds <;> rfl

/-- Lines with the same code are blank both or neither. -/
theorem isBlank_eq (h : SameCode line line') : isBlank line' = isBlank line := by
  refine h.eq_of fun cs rest rest' _ ↦ ?_
  simp [isBlank, allBlank, show Text.isBlank '$' = false from by decide]

/-- The first columns of lines with the same code are blank both or neither. -/
theorem allBlank_firstColumns_eq (h : SameCode line line') :
    allBlank (firstColumns line') = allBlank (firstColumns line) := by
  refine h.eq_of (f := fun l ↦ allBlank (firstColumns l)) fun cs rest rest' _ ↦ ?_
  simp only [firstColumns, String.toList_ofList, List.take_append, allBlank_append]
  cases Limits.continuationColumns - cs.length with
  | zero => rfl
  | succ n => simp [allBlank, show Text.isBlank '$' = false from by decide]

end SameCode

/-- A comment, or a line whose `$` lies within the width, is kept but for the blanks at its end. -/
theorem keep_eq_of_mem {width : Nat} (h : isComment line = true ∨ '$' ∈ line.toList.take width) :
    keep width line = trimEndString line := by
  rw [← mem_take_trimEnd_iff (by decide)] at h
  rw [keep, if_pos]
  · rfl
  · rw [Bool.or_eq_true, Bool.or_eq_true, List.contains_iff_mem]
    tauto

/-- Where a comment lies behind the width, nothing of it is kept. -/
theorem keep_eq_of_code {width : Nat} (hcomment : isComment line = false) (hmem : '$' ∈ line.toList)
    (hdollar : '$' ∉ line.toList.take width) :
    keep width line = String.ofList (trimEnd ((code line).take width)) := by
  obtain ⟨rest, hrest⟩ := trimEnd_eq_code_append hmem
  rw [← mem_take_trimEnd_iff (by decide), hrest, List.take_append] at hdollar
  have hlong : width ≤ (code line).length := by
    by_contra hlt
    obtain ⟨n, hn⟩ := Nat.exists_eq_succ_of_ne_zero (n := width - (code line).length) (by omega)
    refine hdollar (List.mem_append_right _ ?_)
    rw [hn]
    exact List.mem_cons_self
  have htake : (trimEnd line.toList).take width = (code line).take width := by
    rw [hrest, List.take_append_of_le_length hlong]
  have hfree : '$' ∉ (code line).take width := fun hmem ↦
    not_mem_code line ((List.take_prefix _ _).subset hmem)
  rw [keep, htake, if_neg]
  rw [Bool.or_eq_true, Bool.or_eq_true, List.contains_iff_mem, hcomment, decide_eq_true_eq, hrest,
    List.length_append, List.length_cons]
  simp only [Bool.false_eq_true, hfree, or_false]
  omega

/-- A card keeps lines up to their comments. -/
theorem SameCode.keep {width : Nat} (h : SameCode line line') :
    SameCode (Line.keep width line) (Line.keep width line') := by
  have hcomment := h.isComment_eq
  rcases h with rfl | ⟨hcode, hmem, hmem'⟩
  · exact .refl _
  obtain ⟨rest, hrest⟩ := trimEnd_eq_code_append hmem
  obtain ⟨rest', hrest'⟩ := trimEnd_eq_code_append hmem'
  have hwithin {l : String} {r : List Char} (hr : trimEnd l.toList = code l ++ '$' :: r) :
      '$' ∈ l.toList.take width ↔ (code l).length < width := by
    have hsolid : Text.isBlank '$' = false := by decide
    rw [← mem_take_trimEnd_iff hsolid, hr, List.take_append, List.mem_append, ← Nat.sub_pos_iff_lt]
    have hfree : '$' ∉ (code l).take width := fun hmem ↦
      not_mem_code l ((List.take_prefix _ _).subset hmem)
    cases width - (code l).length <;> simp [hfree]
  have htake : '$' ∈ line'.toList.take width ↔ '$' ∈ line.toList.take width := by
    rw [hwithin hrest, hwithin hrest', hcode]
  by_cases hkept : isComment line = true ∨ '$' ∈ line.toList.take width
  · right
    rw [keep_eq_of_mem hkept, keep_eq_of_mem (by rwa [hcomment, htake])]
    have hcodes {l : String} {r : List Char} (hr : trimEnd l.toList = code l ++ '$' :: r) :
        code (trimEndString l) = code l ∧ '$' ∈ (trimEndString l).toList := by
      rw [trimEndString, hr, code_ofList (not_mem_code l), String.toList_ofList]
      exact ⟨rfl, by simp⟩
    exact ⟨by rw [(hcodes hrest).1, (hcodes hrest').1, hcode], (hcodes hrest).2, (hcodes hrest').2⟩
  · left
    rw [not_or, Bool.not_eq_true] at hkept
    rw [keep_eq_of_code hkept.1 hmem hkept.2,
      keep_eq_of_code (hcomment.trans hkept.1) hmem' (by rw [htake]; exact hkept.2), hcode]

/-- A comment line is not blank, for it has a letter. -/
theorem not_isBlank_of_isComment (h : isComment line = true) : isBlank line = false := by
  rw [← Bool.not_eq_true]
  intro hblank
  have hnil : line.toList.dropWhile Text.isBlank = [] :=
    List.dropWhile_eq_nil_iff.mpr (List.all_eq_true.mp hblank)
  rw [isComment, hnil, Bool.and_false] at h
  cases h

/-- A line that is cut to the width is a comment line as before. -/
theorem isComment_keep {width : Nat} (hwidth : Limits.continuationColumns < width) (line : String) :
    isComment (Line.keep width line) = isComment line := by
  by_cases hempty : Line.keep width line = ""
  · rw [hempty]
    cases hcomment : isComment line with
    | false => rfl
    | true =>
      -- Comments are kept, so only a blank line leaves nothing.
      rw [keep_eq_of_mem (.inl hcomment), trimEndString, String.ofList_eq_empty_iff,
        trimEnd_eq_nil_iff] at hempty
      exact absurd hempty (by simpa [isBlank] using not_isBlank_of_isComment hcomment)
  · have h := (shortens_keep hwidth hempty).isComment_eq
    rwa [String.ofList_toList, String.ofList_toList] at h

/-- A change of comments leaves a comment line a comment line. -/
theorem SameButComment.isComment_eq (h : SameButComment line line') :
    isComment line' = isComment line := by
  rcases h with h | ⟨hcomment, hcomment'⟩
  · exact h.isComment_eq
  · rw [hcomment, hcomment']

/-- A change of comments leaves a blank line blank. -/
theorem SameButComment.isBlank_eq (h : SameButComment line line') :
    isBlank line' = isBlank line := by
  rcases h with h | ⟨hcomment, hcomment'⟩
  · exact h.isBlank_eq
  · rw [not_isBlank_of_isComment hcomment, not_isBlank_of_isComment hcomment']

end Line

/-! ## Cards up to their comments -/

namespace Text

/-- The first word of a text. -/
theorem head?_words (cs : List Char) : (words cs).head? =
    if cs.dropWhile isBlank = [] then none
      else some ((cs.dropWhile isBlank).takeWhile (!isBlank ·)) := by
  have hhead (ds : List Char) :
      ∃ rest, splitWhere isBlank ds = ds.takeWhile (!isBlank ·) :: rest := by
    induction ds with
    | nil => exact ⟨[], rfl⟩
    | cons d ds ih =>
      obtain ⟨rest, hrest⟩ := ih
      rw [splitWhere, hrest]
      cases hd : isBlank d with
      | true => exact ⟨_, by simp [hd]; rfl⟩
      | false => exact ⟨rest, by simp [hd]⟩
  induction cs with
  | nil => rfl
  | cons c cs ih =>
    cases hc : isBlank c with
    | true =>
      rw [List.dropWhile_cons_of_pos hc, ← ih, words, words, wordsWhere,
        wordsWhere, splitWhere, if_pos hc]
      rfl
    | false =>
      obtain ⟨rest, hrest⟩ := hhead (c :: cs)
      rw [List.dropWhile_cons_of_neg (by simp [hc]), if_neg (List.cons_ne_nil _ _),
        words, wordsWhere, hrest]
      simp [hc]

end Text

namespace Card

/-- The lines of a card that are not comments. -/
def codeOf (ls : List String) : List String := ls.filter (!Line.isComment ·)

/-- The lines have the same code, line by line, up to comments. -/
def SameLines (ls ls' : List String) : Prop := List.Forall₂ Line.SameCode (codeOf ls) (codeOf ls')

/-- The block of a card, and the code of its lines that are not comments. -/
def codeShape (c : Card) : Block × List (List Char) := (c.block, c.codeLines.map Line.code)

/-- Whether a line starts with the word that asks for a file. -/
def opensRead (line : String) : Bool :=
  match ((words line.toList).head?).map String.ofList with
  | some word => sameWord word "read"
  | none => false

/-- Whether a card asks for a file is told by the first of its lines that is no comment. -/
theorem isRead_eq (c : Card) : c.isRead = c.codeLines.head?.any opensRead := by
  unfold isRead firstWord?
  cases c.codeLines.head? <;> rfl

/-- The word that asks for a file has no dollar sign in it. -/
theorem sameWord_read {word : List Char} (h : '$' ∈ word) :
    sameWord (String.ofList word) "read" = false := by
  rw [sameWord, beq_eq_false_iff_ne, String.toList_ofList]
  intro heq
  have hmem : Char.toLower '$' ∈ lower word := List.mem_map_of_mem h
  rw [heq] at hmem
  revert hmem
  decide

/-- Whether a line asks for a file is told by its code. -/
theorem opensRead_eq {line line' : String} (h : Line.SameCode line line') :
    opensRead line' = opensRead line := by
  refine h.eq_of fun cs rest rest' _ ↦ ?_
  have hdollar : isBlank '$' = false := by decide
  have hdrop (X : List Char) :
      (cs ++ '$' :: X).dropWhile isBlank = cs.dropWhile isBlank ++ '$' :: X := by
    rw [List.dropWhile_append]
    split_ifs with hnil
    · rw [List.isEmpty_iff.mp hnil, List.dropWhile_cons_of_neg (by simp [hdollar]), List.nil_append]
    · rfl
  have hopens (X : List Char) : opensRead (String.ofList (cs ++ '$' :: X)) =
      sameWord (String.ofList ((cs.dropWhile isBlank ++ '$' :: X).takeWhile (!isBlank ·)))
        "read" := by
    rw [opensRead, String.toList_ofList, head?_words, hdrop, if_neg (by simp)]
    rfl
  rw [hopens, hopens, List.takeWhile_append, List.takeWhile_append]
  -- A word that goes on up to the comment holds the `$`.
  split_ifs with hword
  · rw [sameWord_read (by simp [hdollar]), sameWord_read (by simp [hdollar])]
  · rfl

/-- Cards that are the same up to comments have the same code. -/
theorem map_code_eq {ls ls' : List String} (h : List.Forall₂ Line.SameCode ls ls') :
    ls'.map Line.code = ls.map Line.code := by
  induction h with
  | nil => rfl
  | cons hline _ ih => rw [List.map_cons, List.map_cons, hline.code_eq, ih]

theorem any_opensRead_eq {ls ls' : List String} (h : List.Forall₂ Line.SameCode ls ls') :
    ls'.head?.any opensRead = ls.head?.any opensRead := by
  cases h with
  | nil => rfl
  | cons hline _ => exact opensRead_eq hline

/-- Cards of one block that are the same up to comments have one shape. -/
theorem codeShape_eq {c c' : Card} (hblock : c'.block = c.block) (h : SameLines c.lines c'.lines) :
    c'.codeShape = c.codeShape := by
  rw [codeShape, codeShape, hblock]
  exact congrArg (Prod.mk c.block) (map_code_eq h)

/-- Which file a card asks for does not depend on its comments. -/
theorem target?_eq {c c' : Card} (h : SameLines c.lines c'.lines) : c'.target? = c.target? := by
  have hread : c'.isRead = c.isRead := by
    rw [isRead_eq, isRead_eq]
    exact any_opensRead_eq h
  have hwords (d : Card) : d.codeWords =
      (d.codeLines.map Line.code).flatMap fun code ↦
        (wordsWhere separates code).map String.ofList := by
    rw [codeWords, List.flatMap_map]
  have hcode : c'.codeLines.map Line.code = c.codeLines.map Line.code := map_code_eq h
  rw [target?, target?, hread, hwords, hwords, hcode]

end Card

/-! ## Changes of comments -/

/-- What becomes of a line. -/
inductive LineEdit where
  | rewrite (line line' : String)
  | delete (line : String)
deriving DecidableEq

namespace LineEdit

def before : LineEdit → String
  | rewrite line _ => line
  | delete line => line

def after : LineEdit → List String
  | rewrite _ line' => [line']
  | delete _ => []

def deletes : LineEdit → Bool
  | rewrite .. => false
  | delete _ => true

/-- The edit changes or deletes nothing but a comment. -/
def OnlyComment : LineEdit → Prop
  | rewrite line line' => Line.SameButComment line line'
  | delete line => Line.isComment line = true

instance : DecidablePred OnlyComment
  | rewrite line line' => inferInstanceAs (Decidable (Line.SameButComment line line'))
  | delete line => inferInstanceAs (Decidable (Line.isComment line = true))

/-- The edits of lines before the first blank one. -/
def inBlock (es : List LineEdit) : List LineEdit := es.takeWhile fun e ↦ !Line.isBlank e.before

/-- The edits of lines behind the first blank one. -/
def behind (es : List LineEdit) : List LineEdit :=
  (es.dropWhile fun e ↦ !Line.isBlank e.before).drop 1

/-- The edits of lines, as far as these stand in the next `room` blocks. -/
def blocks : (room : Nat) → List LineEdit → List (List LineEdit)
  | 0, _ => []
  | room + 1, es => inBlock es :: blocks room (behind es)

/-- The marks that reading takes from whole lines stay as they are: where `#` makes a line vertical,
and which line asks for more.  `continued` tells whether the line before asks for more; a line that
is deleted must not stand between. -/
def KeepsMarks (width : Nat) : (continued : Bool) → List LineEdit → Prop
  | _, [] => True
  | _, rewrite line line' :: es =>
    Reading.isVertical line' = Reading.isVertical line ∧
    Reading.asksForMore (Line.keep width line') = Reading.asksForMore (Line.keep width line) ∧
    KeepsMarks width (Reading.asksForMore (Line.keep width line)) es
  | continued, delete line :: es =>
    Reading.asksForMore (Line.keep width line) = continued ∧ KeepsMarks width continued es

instance decidableKeepsMarks (width : Nat) :
    (continued : Bool) → (es : List LineEdit) → Decidable (KeepsMarks width continued es)
  | _, [] => inferInstanceAs (Decidable True)
  | _, rewrite line _ :: es =>
    have := decidableKeepsMarks width (Reading.asksForMore (Line.keep width line)) es
    inferInstanceAs (Decidable (_ ∧ _ ∧ _))
  | continued, delete _ :: es =>
    have := decidableKeepsMarks width continued es
    inferInstanceAs (Decidable (_ ∧ _))

end LineEdit

/-- The lines of one text become those of another: the title and the message stay, and edits of
comments lead from the one body to the other, which delete a line only from a block with code. -/
structure EditsComments (es : List LineEdit) (ls ls' : List String) : Prop where
  message_eq : (Reading.frontOf ls').1 = (Reading.frontOf ls).1
  title_eq : (Reading.frontOf ls').2.head? = (Reading.frontOf ls).2.head?
  before_eq : (Reading.frontOf ls).2.drop 1 = es.map LineEdit.before
  after_eq : (Reading.frontOf ls').2.drop 1 = es.flatMap LineEdit.after
  only_comments : ∀ e ∈ es, e.OnlyComment
  code_left : ∀ room, ∀ b ∈ LineEdit.blocks room es, (∃ e ∈ b, e.deletes = true) →
    ∃ e ∈ b, Line.isComment e.before = false

namespace Reading

variable {width : Nat} {hasCode continued : Bool} {pending pending' : List String}
  {es : List LineEdit}

/-- A kept line adds its code to a card, and a comment line adds none. -/
theorem codeOf_concat_keep (hwidth : Limits.continuationColumns < width) (pending : List String)
    (line : String) : Card.codeOf (pending ++ [Line.keep width line]) =
      Card.codeOf pending ++ if Line.isComment line then [] else [Line.keep width line] := by
  rw [Card.codeOf, List.filter_append, List.filter_singleton, Line.isComment_keep hwidth]
  cases Line.isComment line <;> rfl

/-- Cards that are the same up to comments stay so when each gets one more line. -/
theorem sameLines_concat (hwidth : Limits.continuationColumns < width)
    (hpending : Card.SameLines pending pending') {line line' : String}
    (hline : Line.SameButComment line line') :
    Card.SameLines (pending ++ [Line.keep width line]) (pending' ++ [Line.keep width line']) := by
  rw [Card.SameLines, codeOf_concat_keep hwidth, codeOf_concat_keep hwidth, hline.isComment_eq]
  refine List.rel_append hpending ?_
  split_ifs with hcomment
  · exact .nil
  · rcases hline with hcode | ⟨h, -⟩
    · exact .cons hcode.keep .nil
    · exact absurd h hcomment

/-- Which line starts a card does not depend on comments. -/
theorem opens_eq {line line' : String} (hline : Line.SameButComment line line')
    (hcode : hasCode = true → pending ≠ [] ∧ pending' ≠ []) :
    opens hasCode continued pending' line' = opens hasCode continued pending line := by
  unfold opens
  rw [hline.isComment_eq]
  rcases hline with h | ⟨hcomment, -⟩
  · rw [h.allBlank_firstColumns_eq]
    cases hasCode with
    | false => simp
    | true =>
      obtain ⟨hne, hne'⟩ := hcode rfl
      rw [List.isEmpty_eq_false_iff.mpr hne, List.isEmpty_eq_false_iff.mpr hne']
  · simp [hcomment]

/-- Division of a block into cards does not depend on its comments. -/
theorem divide_edits (hwidth : Limits.continuationColumns < width) (honly : ∀ e ∈ es, e.OnlyComment)
    (hmarks : LineEdit.KeepsMarks width continued es) (hpending : Card.SameLines pending pending')
    (hcode : hasCode = true → pending ≠ [] ∧ pending' ≠ [])
    (hend : ((pending = [] ↔ pending' = []) ∧ ∀ e ∈ es, e.deletes = false) ∨ hasCode = true ∨
      ∃ e ∈ es, Line.isComment e.before = false) :
    List.Forall₂ Card.SameLines (divide width hasCode continued pending (es.map LineEdit.before))
      (divide width hasCode continued pending' (es.flatMap LineEdit.after)) := by
  induction es generalizing hasCode continued pending pending' with
  | nil =>
    have hempty : pending = [] ↔ pending' = [] := by
      rcases hend with ⟨h, -⟩ | h | ⟨e, he, -⟩
      · exact h
      · exact iff_of_false (hcode h).1 (hcode h).2
      · cases he
    change List.Forall₂ _ (pendingCard pending) (pendingCard pending')
    unfold pendingCard
    rw [show pending'.isEmpty = pending.isEmpty by
      rw [Bool.eq_iff_iff, List.isEmpty_iff, List.isEmpty_iff, hempty]]
    split_ifs
    · exact .nil
    · exact .cons hpending .nil
  | cons e es ih =>
    rw [List.forall_mem_cons] at honly
    cases e with
    | delete line =>
      obtain ⟨hasks, hmarks⟩ := hmarks
      have hcomment : Line.isComment line = true := honly.1
      have hopens : opens hasCode continued pending line = false := by simp [opens, hcomment]
      change List.Forall₂ _
        (divide width hasCode continued pending (line :: es.map LineEdit.before))
          (divide width hasCode continued pending' (es.flatMap LineEdit.after))
      rw [divide, hopens, if_neg Bool.false_ne_true, hasks, hcomment, Bool.not_true, Bool.or_false]
      refine ih honly.2 hmarks ?_ (fun h ↦ ⟨by simp, (hcode h).2⟩) ?_
      · rw [Card.SameLines, codeOf_concat_keep hwidth, if_pos hcomment, List.append_nil]
        exact hpending
      · rcases hend with ⟨-, hkeeps⟩ | h | ⟨e, he, hfree⟩
        · cases hkeeps _ List.mem_cons_self
        · exact .inr (.inl h)
        · rcases List.mem_cons.mp he with rfl | he
          · exact absurd (hcomment.symm.trans hfree) (by decide)
          · exact .inr (.inr ⟨e, he, hfree⟩)
    | rewrite line line' =>
      obtain ⟨-, hasks, hmarks⟩ := hmarks
      have hline : Line.SameButComment line line' := honly.1
      change List.Forall₂ _
        (divide width hasCode continued pending (line :: es.map LineEdit.before))
          (divide width hasCode continued pending' (line' :: es.flatMap LineEdit.after))
      rw [divide, divide, opens_eq hline hcode, hline.isComment_eq, hasks]
      have hleft : hasCode = true ∨ (∃ e ∈ LineEdit.rewrite line line' :: es,
          Line.isComment e.before = false) → (hasCode || !Line.isComment line) = true ∨
            ∃ e ∈ es, Line.isComment e.before = false := by
        rintro (h | ⟨e, he, hfree⟩)
        · exact .inl (by rw [h, Bool.true_or])
        · rcases List.mem_cons.mp he with rfl | he
          · change Line.isComment line = false at hfree
            exact .inl (by rw [hfree, Bool.not_false, Bool.or_true])
          · exact .inr ⟨e, he, hfree⟩
      have hrest {p p' : List String} (hp : p ≠ []) (hp' : p' ≠ []) (hsame : Card.SameLines p p') :
          List.Forall₂ Card.SameLines
            (divide width (hasCode || !Line.isComment line) (asksForMore (Line.keep width line)) p
              (es.map LineEdit.before))
            (divide width (hasCode || !Line.isComment line) (asksForMore (Line.keep width line)) p'
              (es.flatMap LineEdit.after)) := by
        refine ih honly.2 hmarks hsame (fun _ ↦ ⟨hp, hp'⟩) (hend.imp ?_ hleft)
        rintro ⟨-, hkeeps⟩
        exact ⟨iff_of_false hp hp', fun e he ↦ hkeeps e (List.mem_cons_of_mem _ he)⟩
      split_ifs with hopens
      · refine .cons hpending (hrest (List.cons_ne_nil _ _) (List.cons_ne_nil _ _) ?_)
        have hnone : Card.SameLines [] [] := .nil
        exact sameLines_concat hwidth hnone hline
      · exact hrest (by simp) (by simp) (sameLines_concat hwidth hpending hline)

/-! ## Blocks up to their comments -/

/-- The edits in the first block are the edits of its lines. -/
theorem inBlock_before :
    inBlock (es.map LineEdit.before) = (LineEdit.inBlock es).map LineEdit.before :=
  List.takeWhile_map

/-- The edits behind the first block are the edits of the lines there. -/
theorem behind_before :
    behind (es.map LineEdit.before) = (LineEdit.behind es).map LineEdit.before := by
  rw [behind, List.dropWhile_map, LineEdit.behind, List.map_drop]
  rfl

/-- An edit of a line that is not blank belongs to the block before the next blank line. -/
theorem inBlock_cons_solid {e : LineEdit} (h : Line.isBlank e.before = false) (es : List LineEdit) :
    LineEdit.inBlock (e :: es) = e :: LineEdit.inBlock es ∧
      LineEdit.behind (e :: es) = LineEdit.behind es := by
  simp [LineEdit.inBlock, LineEdit.behind, h]

/-- A blank line stays as it is, and no other line becomes blank. -/
theorem inBlock_behind_after (honly : ∀ e ∈ es, e.OnlyComment) :
    inBlock (es.flatMap LineEdit.after) = (LineEdit.inBlock es).flatMap LineEdit.after ∧
      behind (es.flatMap LineEdit.after) = (LineEdit.behind es).flatMap LineEdit.after := by
  induction es with
  | nil => exact ⟨rfl, rfl⟩
  | cons e es ih =>
    rw [List.forall_mem_cons] at honly
    have ih := ih honly.2
    cases e with
    | delete line =>
      obtain ⟨hin, hbehind⟩ := inBlock_cons_solid (e := .delete line)
        (Line.not_isBlank_of_isComment honly.1) es
      rw [hin, hbehind]
      exact ih
    | rewrite line line' =>
      have hblank : Line.isBlank line' = Line.isBlank line := Line.SameButComment.isBlank_eq honly.1
      rw [List.flatMap_cons, LineEdit.after, List.singleton_append]
      cases hline : Line.isBlank line with
      | true =>
        simp [inBlock, behind, LineEdit.inBlock, LineEdit.behind, LineEdit.before,
          hline, hblank.trans hline]
      | false =>
        obtain ⟨hin, hbehind⟩ := inBlock_cons_solid (e := .rewrite line line') hline es
        rw [hin, hbehind, List.flatMap_cons, LineEdit.after, List.singleton_append, ← ih.1, ← ih.2]
        simp [inBlock, behind, hblank.trans hline]

theorem mem_of_mem_inBlock {e : LineEdit} (h : e ∈ LineEdit.inBlock es) : e ∈ es :=
  (List.takeWhile_prefix _).subset h

theorem mem_of_mem_behind {e : LineEdit} (h : e ∈ LineEdit.behind es) : e ∈ es :=
  ((List.drop_suffix _ _).trans (List.dropWhile_suffix _)).subset h

/-- The cards of the blocks do not depend on comments. -/
theorem cardsIn_edits (hwidth : Limits.continuationColumns < width) {room : Nat}
    (honly : ∀ e ∈ es, e.OnlyComment)
    (hmarks : ∀ b ∈ LineEdit.blocks room es, LineEdit.KeepsMarks width false b)
    (hleft : ∀ b ∈ LineEdit.blocks room es, (∃ e ∈ b, e.deletes = true) →
      ∃ e ∈ b, Line.isComment e.before = false) :
    List.Forall₂ (fun c c' ↦ c'.1 = c.1 ∧ Card.SameLines c.2 c'.2)
      (cardsIn width room (es.map LineEdit.before))
        (cardsIn width room (es.flatMap LineEdit.after)) := by
  induction room generalizing es with
  | zero => exact .nil
  | succ room ih =>
    rw [LineEdit.blocks, List.forall_mem_cons] at hmarks hleft
    obtain ⟨hin, hbehind⟩ := inBlock_behind_after honly
    rw [cardsIn, cardsIn, inBlock_before, behind_before, hin, hbehind]
    refine List.rel_append ?_ (ih (fun e he ↦ honly e (mem_of_mem_behind he)) hmarks.2 hleft.2)
    rw [List.forall₂_map_left_iff, List.forall₂_map_right_iff]
    have hnone : Card.SameLines [] [] := .nil
    refine (divide_edits hwidth (fun e he ↦ honly e (mem_of_mem_inBlock he)) hmarks.1 hnone
      (fun h ↦ by cases h) ?_).imp fun _ _ h ↦ ⟨rfl, h⟩
    by_cases hdeletes : ∃ e ∈ LineEdit.inBlock es, e.deletes = true
    · exact .inr (.inr (hleft.1 hdeletes))
    · exact .inl ⟨Iff.rfl, fun e he ↦ by simpa using fun h ↦ hdeletes ⟨e, he, h⟩⟩

/-- The marks of vertical format are looked for outside of comment lines. -/
theorem isVertical_of_isComment {line : String} (h : Line.isComment line = true) :
    isVertical line = false := by
  rw [isVertical, h]
  rfl

/-- In one block an edit of comments does not make a line vertical, nor undo that. -/
theorem horizontal_block {b : List LineEdit} (honly : ∀ e ∈ b, e.OnlyComment)
    (hmarks : LineEdit.KeepsMarks width continued b) :
    (∀ line ∈ b.map LineEdit.before, isVertical line = false) ↔
      ∀ line ∈ b.flatMap LineEdit.after, isVertical line = false := by
  induction b generalizing continued with
  | nil => exact Iff.rfl
  | cons e es ih =>
    rw [List.forall_mem_cons] at honly
    cases e with
    | delete line =>
      simp only [List.map_cons, List.forall_mem_cons, List.flatMap_cons, LineEdit.after,
        List.nil_append, ← ih honly.2 hmarks.2]
      exact and_iff_right (isVertical_of_isComment honly.1)
    | rewrite line line' =>
      simp only [List.map_cons, List.forall_mem_cons, List.flatMap_cons, LineEdit.after,
        List.singleton_append, ← ih honly.2 hmarks.2.2, hmarks.1]
      rfl

/-- In the blocks to come an edit of comments does not make a line vertical, nor undo that. -/
theorem horizontal_edits {room : Nat} (honly : ∀ e ∈ es, e.OnlyComment)
    (hmarks : ∀ b ∈ LineEdit.blocks room es, LineEdit.KeepsMarks width false b) :
    (∀ line ∈ linesIn room (es.map LineEdit.before), isVertical line = false) ↔
      ∀ line ∈ linesIn room (es.flatMap LineEdit.after), isVertical line = false := by
  induction room generalizing es with
  | zero => exact Iff.rfl
  | succ room ih =>
    rw [LineEdit.blocks, List.forall_mem_cons] at hmarks
    obtain ⟨hin, hbehind⟩ := inBlock_behind_after honly
    rw [linesIn, linesIn, inBlock_before, behind_before, hin, hbehind, List.forall_mem_append,
      List.forall_mem_append]
    exact and_congr (horizontal_block (fun e he ↦ honly e (mem_of_mem_inBlock he)) hmarks.1)
      (ih (fun e he ↦ honly e (mem_of_mem_behind he)) hmarks.2)

/-! ## Whole texts up to their comments -/

/-- Every line that is not blank stands in a block. -/
theorem exists_block {e : LineEdit} (he : e ∈ es) (hsolid : Line.isBlank e.before = false) :
    ∃ room, ∃ b ∈ LineEdit.blocks room es, e ∈ b := by
  induction es with
  | nil => cases he
  | cons f es ih =>
    cases hf : Line.isBlank f.before with
    | true =>
      have hbehind : LineEdit.behind (f :: es) = es := by simp [LineEdit.behind, hf]
      rcases List.mem_cons.mp he with rfl | he
      · rw [hf] at hsolid
        cases hsolid
      · obtain ⟨room, b, hb, hmem⟩ := ih he
        refine ⟨room + 1, b, List.mem_cons_of_mem _ ?_, hmem⟩
        rwa [hbehind]
    | false =>
      obtain ⟨hin, hbehind⟩ := inBlock_cons_solid hf es
      rcases List.mem_cons.mp he with rfl | he
      · exact ⟨1, _, List.mem_cons_self, by rw [hin]; exact List.mem_cons_self⟩
      · obtain ⟨room, b, hb, hmem⟩ := ih he
        cases room with
        | zero => cases hb
        | succ room =>
          rw [LineEdit.blocks] at hb
          rcases List.mem_cons.mp hb with rfl | hb
          · exact ⟨1, _, List.mem_cons_self, by rw [hin]; exact List.mem_cons_of_mem _ hmem⟩
          · refine ⟨room + 1, b, List.mem_cons_of_mem _ ?_, hmem⟩
            rwa [hbehind]

/-- An edit in a block is one of the edits, and of a line that is not blank. -/
theorem of_mem_blocks {room : Nat} {b : List LineEdit} (hb : b ∈ LineEdit.blocks room es)
    {e : LineEdit} (he : e ∈ b) : e ∈ es ∧ Line.isBlank e.before = false := by
  induction room generalizing es with
  | zero => cases hb
  | succ room ih =>
    rcases List.mem_cons.mp hb with rfl | hb
    · exact ⟨mem_of_mem_inBlock he, by simpa using List.mem_takeWhile_imp he⟩
    · exact (ih hb).imp_left mem_of_mem_behind

/-- A text does not become blank: where a line is deleted there is code. -/
theorem all_isBlank_body (honly : ∀ e ∈ es, e.OnlyComment)
    (hleft : ∀ room, ∀ b ∈ LineEdit.blocks room es, (∃ e ∈ b, e.deletes = true) →
      ∃ e ∈ b, Line.isComment e.before = false) :
    (∀ line ∈ es.flatMap LineEdit.after, Line.isBlank line = true) ↔
      ∀ line ∈ es.map LineEdit.before, Line.isBlank line = true := by
  simp only [List.forall_mem_map, List.mem_flatMap, forall_exists_index, and_imp]
  constructor
  · intro h e he
    by_contra hsolid
    rw [Bool.not_eq_true] at hsolid
    have hrewritten {f : LineEdit} (hf : f ∈ es) (hf' : f.deletes = false) :
        Line.isBlank f.before = true := by
      have hline := honly f hf
      cases f with
      | delete line => cases hf'
      | rewrite line line' =>
        change Line.isBlank line = true
        rw [← Line.SameButComment.isBlank_eq hline]
        exact h line' _ hf List.mem_cons_self
    cases hdeletes : e.deletes with
    | false => 
      rw [hrewritten he hdeletes] at hsolid
      cases hsolid
    | true =>
      obtain ⟨room, b, hb, hmem⟩ := exists_block he hsolid
      obtain ⟨f, hf, hcode⟩ := hleft room b hb ⟨e, hmem, hdeletes⟩
      obtain ⟨hfmem, hfsolid⟩ := of_mem_blocks hb hf
      have hkeeps : f.deletes = false := by
        cases f with
        | rewrite line line' => rfl
        | delete line =>
          have hcomment : Line.isComment line = true := honly _ hfmem
          exact absurd (hcomment.symm.trans hcode) (by decide)
      rw [hrewritten hfmem hkeeps] at hfsolid
      cases hfsolid
  · intro h line e he hline
    have hblank := h e he
    have hedit := honly e he
    cases e with
    | delete line => cases hline
    | rewrite line line' =>
      obtain rfl := List.mem_singleton.mp hline
      rw [Line.SameButComment.isBlank_eq hedit]
      exact hblank

/-- A text of blank lines only has no message, a blank title and nothing else. -/
theorem all_isBlank_iff (ls : List String) : (∀ l ∈ ls, Line.isBlank l = true) ↔
    (frontOf ls).1 = none ∧ (∀ l ∈ (frontOf ls).2.head?, Line.isBlank l = true) ∧
      ∀ l ∈ (frontOf ls).2.drop 1, Line.isBlank l = true := by
  cases ls with
  | nil => simp [frontOf]
  | cons first rest =>
    rw [frontOf]
    split_ifs with hopens
    · refine iff_of_false (fun h ↦ ?_) fun h ↦ by cases h.1
      have hsolid := isBlank_of_opensMessage hopens
      rw [h first List.mem_cons_self] at hsolid
      cases hsolid
    · simp

/-- Both texts can be read, with the same cards up to comments, or neither can. -/
def SameCards (r r' : Except ReadError RawDeck) : Prop :=
  match r, r' with
  | .ok deck, .ok deck' => deck'.message = deck.message ∧ deck'.title = deck.title ∧
      deck'.cards.map Card.codeShape = deck.cards.map Card.codeShape
  | .error _, .error _ => True
  | _, _ => False

/-- No card of the lines asks for another file. -/
def StandsAlone (width : Nat) (ls : List String) : Prop :=
  ∀ c : Card, c.shape ∈ cardsIn width Limits.blocks ((frontOf ls).2.drop 1) → c.target? = none

variable {options : ReadOptions} {files : Files.Source} {path text text' : String}

/-- A text that asks for no other file is read as the deck of its lines, or these cannot be read. -/
theorem ofText_cases (files : Files.Source) (path : String)
    (hwidth : options.version.width = .ok width)
    (hown : StandsAlone width (normalLines options text.toList)) :
    (IsReadable (normalLines options text.toList) ∧
      ∃ deck, RawDeck.ofText options files path text = .ok deck ∧
        IsDeckOf width (normalLines options text.toList) deck.message deck.title
          (deck.cards.map Card.shape)) ∨
    (¬IsReadable (normalLines options text.toList) ∧
      ∃ e, RawDeck.ofText options files path text = .error e) := by
  by_cases hread : IsReadable (normalLines options text.toList)
  · obtain ⟨deck, hdeck, hmessage, htitle, hcards⟩ :=
      exists_ofText hwidth hread ⟨rfl, rfl, rfl⟩ hown
    exact .inl ⟨hread, deck, hdeck, hmessage, htitle, hcards⟩
  · right
    refine ⟨hread, ?_⟩
    cases hdeck : RawDeck.ofText options files path text with
    | error e => exact ⟨e, rfl⟩
    | ok deck =>
      obtain ⟨-, -, -, -, hreadable, -⟩ := exists_scanned_of_ofText hwidth hdeck
      exact absurd hreadable hread

/-- Every version has lines that are wider than the columns in which a card starts. -/
theorem continuationColumns_lt_width {v : Version} (h : v.width = .ok width) :
    Limits.continuationColumns < width := by
  have hlookup {key : Version} {n : Nat} (hn : Version.widths.lookup key = some n) :
      Limits.continuationColumns < n := by
    obtain ⟨before, behind, hsplit, -⟩ := List.lookup_eq_some_iff.mp hn
    have hmem : (key, n) ∈ Version.widths := by simp [hsplit]
    have hall : ∀ entry ∈ Version.widths, Limits.continuationColumns < entry.2 := by decide
    exact hall _ hmem
  unfold Version.width at h
  split at h
  · next n hn =>
    obtain rfl := Except.ok.inj h
    exact hlookup hn
  · cases h

theorem exists_of_mem_forall₂ {α β : Type} {R : α → β → Prop} {as : List α} {bs : List β}
    (h : List.Forall₂ R as bs) {b : β} (hb : b ∈ bs) : ∃ a ∈ as, R a b := by
  induction h with
  | nil => cases hb
  | cons hab _ ih =>
    rcases List.mem_cons.mp hb with rfl | hb
    · exact ⟨_, List.mem_cons_self, hab⟩
    · obtain ⟨a, ha, hab⟩ := ih hb
      exact ⟨a, List.mem_cons_of_mem _ ha, hab⟩

/-- A text stands alone if none of its cards asks for a file. -/
theorem standsAlone_of_shapes {ls : List String} (h : ∀ s ∈ cardsIn width Limits.blocks
    ((frontOf ls).2.drop 1), (Card.mk s.1 s.2 "" 0 0).target? = none) : StandsAlone width ls :=
  fun c hc ↦ by
  rw [← h _ hc]
  exact target?_congr rfl

/-- Of a single block with code every comment may be deleted. -/
theorem code_left_of_solid (hsolid : ∀ e ∈ es, Line.isBlank e.before = false)
    (hcode : ∃ e ∈ es, Line.isComment e.before = false) (room : Nat) :
    ∀ b ∈ LineEdit.blocks room es, (∃ e ∈ b, e.deletes = true) →
      ∃ e ∈ b, Line.isComment e.before = false := by
  have hin : LineEdit.inBlock es = es :=
    List.takeWhile_eq_self_iff.mpr fun e he ↦ by simp [hsolid e he]
  have hdrop : es.dropWhile (fun e ↦ !Line.isBlank e.before) = [] :=
    List.dropWhile_eq_nil_iff.mpr fun e he ↦ by simp [hsolid e he]
  cases room with
  | zero => simp [LineEdit.blocks]
  | succ room =>
    rw [LineEdit.blocks, hin, LineEdit.behind, hdrop, List.drop_nil, List.forall_mem_cons]
    refine ⟨fun _ ↦ hcode, fun b hb ⟨e, he, _⟩ ↦ ?_⟩
    cases (of_mem_blocks hb he).1

section Edits

variable (hwidth : options.version.width = .ok width)
  (hedits : EditsComments es (normalLines options text.toList) (normalLines options text'.toList))
  (hmarks : ∀ b ∈ LineEdit.blocks Limits.blocks es, LineEdit.KeepsMarks width false b)

include hwidth hedits hmarks

/-- Before and after an edit of comments there are cards of the same blocks with the same code. -/
theorem cardsIn_of_edits : List.Forall₂ (fun c c' ↦ c'.1 = c.1 ∧ Card.SameLines c.2 c'.2)
    (cardsIn width Limits.blocks ((frontOf (normalLines options text.toList)).2.drop 1))
    (cardsIn width Limits.blocks ((frontOf (normalLines options text'.toList)).2.drop 1)) := by
  rw [hedits.before_eq, hedits.after_eq]
  exact cardsIn_edits (continuationColumns_lt_width hwidth) hedits.only_comments hmarks
    (hedits.code_left Limits.blocks)

/-- An edit of comments does not make a text ask for a file. -/
theorem standsAlone_of_edits (hown : StandsAlone width (normalLines options text.toList)) :
    StandsAlone width (normalLines options text'.toList) := fun c' hc' ↦ by
  obtain ⟨⟨b, ls⟩, hshape, -, hlines⟩ :=
    exists_of_mem_forall₂ (cardsIn_of_edits hwidth hedits hmarks) hc'
  rw [Card.target?_eq (c := ⟨b, ls, c'.path, c'.firstLine, c'.depth⟩) hlines]
  exact hown _ hshape

omit hwidth in
/-- A text is readable after an edit of comments if and only if it was before. -/
theorem isReadable_edits : IsReadable (normalLines options text'.toList) ↔
    IsReadable (normalLines options text.toList) := by
  have hbody := all_isBlank_body hedits.only_comments hedits.code_left
  have hcontent : (∀ l ∈ normalLines options text'.toList, Line.isBlank l = true) ↔
      ∀ l ∈ normalLines options text.toList, Line.isBlank l = true := by
    rw [all_isBlank_iff, all_isBlank_iff (normalLines options text.toList), hedits.message_eq,
      hedits.title_eq, hedits.before_eq, hedits.after_eq, hbody]
  have hhorizontal := horizontal_edits hedits.only_comments hmarks
  rw [← hedits.before_eq, ← hedits.after_eq] at hhorizontal
  have hall (ls : List String) : ls.all Line.isBlank = false ↔
      ¬∀ l ∈ ls, Line.isBlank l = true := by
    rw [← Bool.not_eq_true, List.all_eq_true]
  constructor
  · rintro ⟨hsolid, hflat⟩
    exact ⟨(hall _).mpr fun h ↦ (hall _).mp hsolid (hcontent.mpr h), hhorizontal.mpr hflat⟩
  · rintro ⟨hsolid, hflat⟩
    exact ⟨(hall _).mpr fun h ↦ (hall _).mp hsolid (hcontent.mp h), hhorizontal.mp hflat⟩

/-- Comments do not influence the cards of a deck, as long as the marks that are taken from whole
lines stay. -/
theorem sameCards_of_edits (files : Files.Source) (path : String)
    (hown : StandsAlone width (normalLines options text.toList)) :
    SameCards (RawDeck.ofText options files path text)
      (RawDeck.ofText options files path text') := by
  have hown' := standsAlone_of_edits hwidth hedits hmarks hown
  have hread := isReadable_edits hedits hmarks
  rcases ofText_cases files path hwidth hown with ⟨hreadable, deck, hdeck, hof⟩ | ⟨hnot, e, he⟩
  · rcases ofText_cases files path hwidth hown' with ⟨-, deck', hdeck', hof'⟩ | ⟨hnot, -⟩
    · rw [hdeck, hdeck']
      refine ⟨by rw [hof'.message_eq, hof.message_eq, hedits.message_eq],
        by rw [hof'.title_eq, hof.title_eq, hedits.title_eq], ?_⟩
      have hcards := cardsIn_of_edits hwidth hedits hmarks
      rw [← hof.cards_eq, ← hof'.cards_eq, List.forall₂_map_left_iff,
        List.forall₂_map_right_iff] at hcards
      have hshapes : List.Forall₂ (· = ·) (deck.cards.map Card.codeShape)
          (deck'.cards.map Card.codeShape) := by
        rw [List.forall₂_map_left_iff, List.forall₂_map_right_iff]
        exact hcards.imp fun _ _ h ↦ (Card.codeShape_eq h.1 h.2).symm
      rw [List.forall₂_eq_eq_eq] at hshapes
      exact hshapes.symm
    · exact absurd (hread.mpr hreadable) hnot
  · rcases ofText_cases files path hwidth hown' with ⟨hreadable, -⟩ | ⟨-, e', he'⟩
    · exact absurd (hread.mp hreadable) hnot
    · rw [he, he']
      trivial

end Edits

/-- Comments of each kind are changed, and one is deleted. -/
theorem sameCards_of_plain_comments : ∃ (es : List LineEdit) (options : ReadOptions) (width : Nat)
    (text text' : String), options.version.width = .ok width ∧
      EditsComments es (normalLines options text.toList) (normalLines options text'.toList) ∧
      (∃ e ∈ es, e.deletes = true) ∧ StandsAlone width (normalLines options text.toList) ∧
      (∀ b ∈ LineEdit.blocks Limits.blocks es, LineEdit.KeepsMarks width false b) ∧
      (RawDeck.ofText options (fun _ ↦ .error .notFound) "deck" text).isOk = true ∧
      SameCards (RawDeck.ofText options (fun _ ↦ .error .notFound) "deck" text)
        (RawDeck.ofText options (fun _ ↦ .error .notFound) "deck" text') := by
  let es : List LineEdit :=
    [.rewrite "c a" "C b", .rewrite "1 0 -1 $ a &b" "1 0 -1 $", .rewrite "      2" "      2",
      .delete "c gone", .rewrite "2 0 1 &" "2 0 1 &", .rewrite "3 0 $#" "3 0 $ #"]
  let options : ReadOptions := ⟨.standard, true⟩
  let text := "t\nc a\n1 0 -1 $ a &b\n      2\nc gone\n2 0 1 &\n3 0 $#\n"
  let text' := "t\nC b\n1 0 -1 $\n      2\n2 0 1 &\n3 0 $ #\n"
  have hwidth : options.version.width = .ok 128 := rfl
  have hedits : EditsComments es (normalLines options text.toList)
      (normalLines options text'.toList) :=
    ⟨by decide +kernel, by decide +kernel, by decide +kernel, by decide +kernel, by decide +kernel,
      code_left_of_solid (by decide +kernel) (by decide +kernel)⟩
  have hown : StandsAlone 128 (normalLines options text.toList) :=
    standsAlone_of_shapes (by decide +kernel)
  have hmarks : ∀ b ∈ LineEdit.blocks Limits.blocks es, LineEdit.KeepsMarks 128 false b := by
    decide +kernel
  exact ⟨es, options, 128, text, text', hwidth, hedits, by decide +kernel, hown, hmarks,
    by decide +kernel, sameCards_of_edits hwidth hedits hmarks _ _ hown⟩

/-- The mark of the vertical format is seen in a comment. -/
theorem not_sameCards_of_mark_in_comment :
    ∃ (es : List LineEdit) (options : ReadOptions) (width : Nat)
      (text text' : String), options.version.width = .ok width ∧
      EditsComments es (normalLines options text.toList)
        (normalLines options text'.toList) ∧ StandsAlone width (normalLines options text.toList) ∧
      ¬SameCards (RawDeck.ofText options (fun _ ↦ .error .notFound) "deck" text)
        (RawDeck.ofText options (fun _ ↦ .error .notFound) "deck" text') := by
  let es : List LineEdit := [.rewrite "1 $ a" "1 $ #", .rewrite "      0 -1" "      0 -1"]
  let options : ReadOptions := ⟨.standard, true⟩
  let text := "t\n1 $ a\n      0 -1\n"
  let text' := "t\n1 $ #\n      0 -1\n"
  have hedits : EditsComments es (normalLines options text.toList)
      (normalLines options text'.toList) :=
    ⟨by decide +kernel, by decide +kernel, by decide +kernel, by decide +kernel, by decide +kernel,
      code_left_of_solid (by decide +kernel) (by decide +kernel)⟩
  have hread : RawDeck.ofText options (fun _ ↦ .error .notFound) "deck" text =
      .ok ⟨none, some "t", [⟨.cell, ["1 $ a", "      0 -1"], "deck", 2, 0⟩], [], false⟩ := by
    decide +kernel
  have hfail : RawDeck.ofText options (fun _ ↦ .error .notFound) "deck" text' =
      .error (.verticalFormat "deck" 2) := by decide +kernel
  refine ⟨es, options, 128, text, text', rfl, hedits, standsAlone_of_shapes (by decide +kernel), ?_⟩
  rw [hread, hfail]
  exact id

end Reading

end TransportDeck
