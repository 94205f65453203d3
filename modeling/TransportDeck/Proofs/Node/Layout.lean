import Mathlib.Tactic
import TransportDeck.Node.Layout

/-!
# Texts of layouts

Whatever is put into a layout is added to the end of its text as it is.
-/

namespace TransportDeck

/-- The pieces between separators and the separators between them make up the text. -/
theorem Text.intercalate_splitWhere (c : Char) (cs : List Char) :
    [c].intercalate (splitWhere (· == c) cs) = cs := by
  induction cs with
  | nil => rfl
  | cons d ds ih =>
    rw [splitWhere]
    split_ifs with h
    · obtain rfl : d = c := by simpa using h
      obtain ⟨w, ws, hw⟩ := List.exists_cons_of_ne_nil (splitWhere_ne_nil (· == d) ds)
      rw [hw] at ih ⊢
      rw [List.intercalate_cons_cons, ih]
      rfl
    · split
      · next hnil => exact absurd hnil (splitWhere_ne_nil _ _)
      · next w ws hw =>
        rw [hw] at ih
        cases ws with
        | nil =>
          rw [List.intercalate_singleton] at ih ⊢
          rw [ih]
        | cons v vs =>
          rw [List.intercalate_cons_cons] at ih ⊢
          rw [← ih]
          rfl

namespace Layout

@[simp] theorem text_empty : text .empty = "" := rfl

@[simp] theorem text_push (l : Layout) (p : Piece) : (l.push p).text = l.text ++ p.text := by
  simp [text, push, String.join_append, String.join_cons]

@[simp] theorem text_pushBlanks (l : Layout) (cs : List Char) :
    (l.pushBlanks cs).text = l.text ++ String.ofList cs := by
  unfold pushBlanks
  split_ifs with h
  · rw [List.isEmpty_iff.mp h]
    exact (String.append_empty).symm
  · split
    · next t hlast =>
      obtain ⟨ps, hps⟩ := List.getLast?_eq_some_iff.mp hlast
      simp [text, hps, String.join_append, String.join_cons, Piece.text, String.append_assoc]
    · exact text_push _ _

theorem text_pushParts (l : Layout) (parts : List (List Char)) :
    (l.pushParts parts).text = l.text ++ String.ofList (['\n'].intercalate parts) := by
  fun_induction pushParts l parts with
  | case1 l => exact (String.append_empty).symm
  | case2 l part => simp
  | case3 l part rest hne ih =>
    obtain ⟨next, rest, rfl⟩ := List.exists_cons_of_ne_nil (by simpa using hne)
    rw [ih, List.intercalate_cons_cons, text_push, text_pushBlanks, String.ofList_append,
      String.ofList_append]
    simp only [String.append_assoc]
    rfl

@[simp] theorem text_pushText (l : Layout) (s : String) : (l.pushText s).text = l.text ++ s := by
  rw [pushText, text_pushParts, Text.intercalate_splitWhere, String.ofList_toList]

@[simp] theorem text_pushLiteral (l : Layout) (s : String) :
    (l.pushLiteral s).text = l.text ++ s := text_push _ _

@[simp] theorem text_pushToken (l : Layout) (t : Token) :
    (l.pushToken t).text = l.text ++ t.text := by
  unfold pushToken
  split
  · exact text_pushText _ _
  · exact text_push _ _
  · exact text_push _ _
  · exact text_push _ _

theorem text_foldl_pushToken (l : Layout) (ts : List Token) :
    (ts.foldl pushToken l).text = l.text ++ textOf ts := by
  induction ts generalizing l with
  | nil => exact (String.append_empty).symm
  | cons t ts ih =>
    rw [List.foldl_cons, ih, text_pushToken, String.append_assoc]
    rw [textOf, textOf, List.map_cons, String.join_cons]

@[simp] theorem text_ofLiteral (s : String) : (ofLiteral s).text = s := by simp [ofLiteral]

@[simp] theorem text_appendPiece (l : Layout) (p : Piece) :
    (l.appendPiece p).text = l.text ++ p.text := by
  cases p with
  | space t => exact text_pushText l t
  | _ => exact text_push l _

@[simp] theorem text_append (l m : Layout) : (l ++ m).text = l.text ++ m.text := by
  change (m.pieces.foldl appendPiece l).text = l.text ++ String.join (m.pieces.map Piece.text)
  generalize m.pieces = ps
  induction ps generalizing l with
  | nil => exact (String.append_empty).symm
  | cons p ps ih =>
    rw [List.foldl_cons, ih, text_appendPiece, List.map_cons, String.join_cons,
      String.append_assoc]

theorem text_getD (l : Option Layout) : (l.getD .empty).text = layoutText l := by
  cases l <;> rfl

@[simp] theorem text_gap : gap.text = " " := by simp [gap, ofText]

end Layout

end TransportDeck
