import TransportDeck.Proofs.Node.Layout
import TransportDeck.Proofs.Output.Lines

/-!
# Normal layouts

However a layout is put together, its text is what was put into it, and its pieces are in a normal
form: no space is empty, none holds a line feed, and no two of them are neighbours.  Blanks join the
space before them, so the form is kept piece by piece.
-/

namespace TransportDeck

namespace Layout

variable {l : Layout} {P : Char → Prop}

/-! ## Spaces -/

/-- No space is empty, and all their characters satisfy `P`. -/
def HasSpaces (P : Char → Prop) (l : Layout) : Prop :=
  ∀ s, Piece.space s ∈ l.pieces → s ≠ "" ∧ ∀ c ∈ s.toList, P c

theorem hasSpaces_empty : HasSpaces P .empty := by simp [HasSpaces, empty]

namespace HasSpaces

/-- Blanks that are put behind a layout may be any characters with the property. -/
theorem push (h : l.HasSpaces P) {p : Piece}
    (hp : ∀ s, p = .space s → s ≠ "" ∧ ∀ c ∈ s.toList, P c) : (l.push p).HasSpaces P := by
  intro s hs
  rcases List.mem_append.mp hs with hs | hs
  · exact h s hs
  · exact hp s (List.mem_singleton.mp hs).symm

/-- A piece that is no space adds no blanks. -/
theorem push_of_ne (h : l.HasSpaces P) {p : Piece} (hp : ∀ s, p ≠ .space s) :
    (l.push p).HasSpaces P :=
  h.push fun s hs ↦ absurd hs (hp s)

/-- Blanks with the property are put behind a layout, or none are. -/
theorem pushBlanks (h : l.HasSpaces P) {cs : List Char} (hcs : ∀ c ∈ cs, P c) :
    (l.pushBlanks cs).HasSpaces P := by
  unfold Layout.pushBlanks
  split_ifs with hempty
  · exact h
  · have hne : cs ≠ [] := by simpa using hempty
    split
    · next t hlast =>
      obtain ⟨ps, hps⟩ := List.getLast?_eq_some_iff.mp hlast
      have ht := h t (by rw [hps]; simp)
      rw [hps, List.dropLast_concat]
      refine push (l := ⟨ps⟩) (fun s hs ↦ h s (by rw [hps]; exact List.mem_append_left _ hs)) ?_
      rintro _ ⟨⟩
      rw [String.toList_append, String.toList_ofList, List.forall_mem_append]
      exact ⟨by simp [hne], ht.2, hcs⟩
    · refine h.push ?_
      rintro _ ⟨⟩
      rw [String.toList_ofList]
      exact ⟨by simpa using hne, hcs⟩

theorem pushParts (h : l.HasSpaces P) {parts : List (List Char)}
    (hparts : ∀ part ∈ parts, ∀ c ∈ part, P c) : (l.pushParts parts).HasSpaces P := by
  fun_induction Layout.pushParts l parts with
  | case1 l => exact h
  | case2 l part => exact h.pushBlanks (hparts part List.mem_cons_self)
  | case3 l part rest hne ih =>
    obtain ⟨hpart, hrest⟩ := List.forall_mem_cons.mp hparts
    exact ih ((h.pushBlanks hpart).push_of_ne (by simp)) hrest

end HasSpaces

/-! ## Neighbours -/

/-- No two spaces are neighbours. -/
def IsApart (l : Layout) : Prop := l.pieces.IsChain fun p q ↦ ¬(p.isSpace = true ∧ q.isSpace = true)

/-- A further piece stands apart if it and the one before it are not both spaces. -/
theorem isApart_concat {ps : List Piece} {p : Piece} : IsApart ⟨ps ++ [p]⟩ ↔
    IsApart ⟨ps⟩ ∧ ∀ q ∈ ps.getLast?, ¬(q.isSpace = true ∧ p.isSpace = true) := by
  simp [IsApart, List.isChain_append]

namespace IsApart

/-- What is no space may stand behind anything. -/
theorem push_of_ne (h : l.IsApart) {p : Piece} (hp : p.isSpace = false) : (l.push p).IsApart :=
  isApart_concat.mpr ⟨h, fun _ _ hspaces ↦ Bool.false_ne_true (hp.symm.trans hspaces.2)⟩

/-- Blanks that are put behind blanks become one space with them. -/
theorem pushBlanks (h : l.IsApart) (cs : List Char) : (l.pushBlanks cs).IsApart := by
  unfold Layout.pushBlanks
  split_ifs
  · exact h
  · split
    · next t hlast =>
      -- The longer space has the neighbour that the shorter one had.
      obtain ⟨ps, hps⟩ := List.getLast?_eq_some_iff.mp hlast
      obtain ⟨hfront, hlast⟩ := isApart_concat.mp (show IsApart ⟨ps ++ [.space t]⟩ from hps ▸ h)
      rw [hps, List.dropLast_concat]
      exact isApart_concat.mpr ⟨hfront, fun q hq hspaces ↦ hlast q hq ⟨hspaces.1, rfl⟩⟩
    · next hlast =>
      refine isApart_concat.mpr ⟨h, fun q hq hspaces ↦ ?_⟩
      cases q with
      | space t => exact hlast t hq
      | _ => exact Bool.false_ne_true hspaces.1

theorem pushParts (h : l.IsApart) (parts : List (List Char)) : (l.pushParts parts).IsApart := by
  fun_induction Layout.pushParts l parts with
  | case1 l => exact h
  | case2 l part => exact h.pushBlanks part
  | case3 l part rest hne ih => exact ih ((h.pushBlanks part).push_of_ne rfl)

end IsApart

/-! ## The normal form -/

structure IsNormal (l : Layout) : Prop where
  spaces : l.HasSpaces (· ≠ '\n')
  apart : l.IsApart

/-- Without pieces a layout is in normal form. -/
theorem isNormal_empty : IsNormal .empty := ⟨hasSpaces_empty, List.IsChain.nil⟩

namespace IsNormal

theorem push_of_ne (h : l.IsNormal) {p : Piece} (hp : p.isSpace = false) : (l.push p).IsNormal where
  spaces := h.spaces.push_of_ne fun _ hs ↦
    Bool.false_ne_true (hp.symm.trans (congrArg Piece.isSpace hs))
  apart := h.apart.push_of_ne hp

/-- A text is split into blanks and pieces, and keeps the normal form. -/
theorem pushText (h : l.IsNormal) (s : String) : (l.pushText s).IsNormal where
  spaces := h.spaces.pushParts fun _ hpart _ hc hfeed ↦
    Text.not_mem_of_mem_splitWhere hpart (hfeed ▸ hc)
  apart := h.apart.pushParts _

/-- A token keeps the normal form. -/
theorem pushToken (h : l.IsNormal) (t : Token) : (l.pushToken t).IsNormal := by
  unfold Layout.pushToken
  split
  · exact h.pushText t.text
  · exact h.push_of_ne rfl
  · exact h.push_of_ne rfl
  · exact h.push_of_ne rfl

/-- A piece that is appended keeps the normal form: a space is put to the space before it. -/
theorem appendPiece (h : l.IsNormal) (p : Piece) : (l.appendPiece p).IsNormal := by
  cases p with
  | space t => exact h.pushText t
  | _ => exact h.push_of_ne rfl

/-- What is put behind a layout need not be in normal form. -/
theorem append (h : l.IsNormal) (m : Layout) : (l ++ m).IsNormal := by
  change (m.pieces.foldl Layout.appendPiece l).IsNormal
  induction m.pieces generalizing l with
  | nil => exact h
  | cons p ps ih => exact ih (h.appendPiece p)

/-- Closing a comment keeps the normal form. -/
theorem closeComment (h : l.IsNormal) : l.closeComment.IsNormal := by
  unfold Layout.closeComment
  split_ifs
  · exact h.push_of_ne rfl
  · exact h

end IsNormal

/-! ## Open comments -/

/-- Where there are pieces before these, a comment may be open among those as well. -/
theorem foldl_insideComment_iff (inside : Bool) (ps : List Piece) :
    ps.foldl insideComment inside = true ↔
      (inside = true ∧ .newline ∉ ps) ∨ ∃ before c behind, ps = before ++ .comment c :: behind ∧
      .newline ∉ behind := by
  induction ps generalizing inside with
  | nil => simp
  | cons p ps ih =>
    have hsplit : (∃ before c behind, p :: ps = before ++ .comment c :: behind ∧
      .newline ∉ behind) ↔
        (∃ c, p = .comment c ∧ .newline ∉ ps) ∨
          ∃ before c behind, ps = before ++ .comment c :: behind ∧ .newline ∉ behind := by
      constructor
      · rintro ⟨before, c, behind, heq, hbehind⟩
        rcases List.cons_eq_append_iff.mp heq with ⟨-, hhead⟩ | ⟨before, -, htail⟩
        · obtain ⟨hc, rfl⟩ := List.cons_eq_cons.mp hhead
          exact .inl ⟨c, hc.symm, hbehind⟩
        · exact .inr ⟨before, c, behind, htail, hbehind⟩
      · rintro (⟨c, rfl, hps⟩ | ⟨before, c, behind, rfl, hbehind⟩)
        · exact ⟨[], c, ps, rfl, hps⟩
        · exact ⟨p :: before, c, behind, rfl, hbehind⟩
    rw [List.foldl_cons, ih, hsplit]
    cases p with
    | comment c => simpa [insideComment] using fun _ hps ↦ Or.inl hps
    | _ => simp [insideComment]

/-- A comment is open if it stands behind the last line feed. -/
theorem hasOpenComment_iff (l : Layout) : l.hasOpenComment = true ↔
    ∃ before c behind, l.pieces = before ++ .comment c :: behind ∧ .newline ∉ behind := by
  rw [hasOpenComment, foldl_insideComment_iff]
  simp only [Bool.false_eq_true, false_and, false_or]

/-! ## Putting layouts together -/

/-- What can be put behind a layout. -/
inductive Addition where
  | token (t : Token)
  | text (s : String)
  | comment (s : String)
  | literal (s : String)
  | layout (m : Layout)
  /-- A line feed, if a comment is open. -/
  | close

def add (l : Layout) : Addition → Layout
  | .token t => l.pushToken t
  | .text s => l.pushText s
  | .comment s => l.pushComment s
  | .literal s => l.pushLiteral s
  | .layout m => l ++ m
  | .close => l.closeComment

/-- The text that is added to that of the layout. -/
def addedText (l : Layout) : Addition → String
  | .token t => t.text
  | .text s | .comment s | .literal s => s
  | .layout m => m.text
  | .close => if l.hasOpenComment then "\n" else ""

/-- The texts of a run of additions, one behind the other. -/
def runText (l : Layout) : List Addition → String
  | [] => ""
  | a :: as => l.addedText a ++ (l.add a).runText as

/-- An addition adds its text. -/
theorem text_add (l : Layout) (a : Addition) : (l.add a).text = l.text ++ l.addedText a := by
  cases a with
  | token t => exact text_pushToken l t
  | text s => exact text_pushText l s
  | comment s => exact text_push l _
  | literal s => exact text_pushLiteral l s
  | layout m => exact text_append l m
  | close =>
    change l.closeComment.text = l.text ++ if l.hasOpenComment then "\n" else ""
    unfold closeComment
    split_ifs
    · exact text_push l .newline
    · exact String.append_empty.symm

/-- Additions add their texts, one behind the other. -/
theorem text_foldl_add (l : Layout) (as : List Addition) :
    (as.foldl add l).text = l.text ++ l.runText as := by
  induction as generalizing l with
  | nil => exact String.append_empty.symm
  | cons a as ih => rw [List.foldl_cons, ih, text_add, runText, String.append_assoc]

/-- Every addition keeps the normal form. -/
theorem IsNormal.add (h : l.IsNormal) : ∀ a : Addition, (l.add a).IsNormal
  | .token t => h.pushToken t
  | .text s => h.pushText s
  | .comment _ => h.push_of_ne rfl
  | .literal _ => h.push_of_ne rfl
  | .layout m => h.append m
  | .close => h.closeComment

/-- However much is added to a layout in normal form, it stays so. -/
theorem IsNormal.foldl_add (h : l.IsNormal) (as : List Addition) :
    (as.foldl Layout.add l).IsNormal := by
  induction as generalizing l with
  | nil => exact h
  | cons a as ih => exact ih (h.add a)

/-- Whatever a layout is put together from, its text is all of that, it is in normal form, and a
comment is open in it if one stands behind the last line feed. -/
theorem isNormal_and_text_foldl_add (as : List Addition) :
    let l := as.foldl add .empty
    l.text = runText .empty as ∧
      (∀ s, .space s ∈ l.pieces → s ≠ "" ∧ '\n' ∉ s.toList) ∧
      (l.pieces.IsChain fun p q ↦ ¬(p.isSpace = true ∧ q.isSpace = true)) ∧
      (l.hasOpenComment = true ↔
        ∃ before c behind, l.pieces = before ++ .comment c :: behind ∧ .newline ∉ behind) := by
  intro l
  have hnormal : l.IsNormal := isNormal_empty.foldl_add as
  refine ⟨?_, fun s hs ↦ ?_, hnormal.apart, hasOpenComment_iff l⟩
  · rw [text_foldl_add, text_empty, String.empty_append]
  · obtain ⟨hne, hfeed⟩ := hnormal.spaces s hs
    exact ⟨hne, fun hmem ↦ hfeed _ hmem rfl⟩

end Layout

end TransportDeck
