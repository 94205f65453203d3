import TransportDeck.Proofs.Grammar.ListTexts

/-!
# Items in front of gaps

The items of a list of whole numbers are written as words, with gaps behind them.  A field that was
read from an integer, or from nothing, is written as the whole number that it holds, perhaps behind
a blank and in front of a gap. There is such a gap wherever the layout of the field has a text.
-/

namespace TransportDeck

open Text Lexer

/-! ## Gaps as layouts -/

/-- The layout is a gap between words, and its spaces stand in one line. -/
structure Layout.IsGap (last : Bool) (l : Layout) : Prop where
  gap : Gap last none l.text.toList
  spaces : l.HasSpaces fun c ↦ isAsciiBlank c = true ∧ c ≠ '\n'

namespace Layout

variable {last : Bool} {l : Layout}

theorem isGap_empty : IsGap last .empty := ⟨.nil, hasSpaces_empty⟩

theorem isGap_gap : IsGap last .gap := by
  refine ⟨?_, fun s hs ↦ ?_⟩
  · rw [text_gap]
    exact .blank rfl .nil
  · have hpieces : gap.pieces = [.space " "] := by decide
    rw [hpieces, List.mem_singleton] at hs
    obtain rfl := Piece.space.inj hs
    have hchars : " ".toList = [' '] := rfl
    rw [hchars, List.forall_mem_singleton]
    exact ⟨by decide, by decide, by decide⟩

theorem IsGap.hasBlankSpaces (h : l.IsGap last) : l.HasBlankSpaces := fun s hs ↦
  ⟨(h.spaces s hs).1, fun c hc ↦ isBlank_of_isAsciiBlank ((h.spaces s hs).2 c hc).1⟩

/-- What is left of the layout behind a word is a gap behind any blanks, and has a text if the
layout has one. -/
theorem IsGap.of_isRest {behind : Layout} (h : l.IsGap last) {n : Nat} (hrest : l.IsRest behind n) :
    Gap last none (Text.spaces n ++ behind.text).toList ∧
      (l.text ≠ "" → Text.spaces n ++ behind.text ≠ "") := by
  obtain ⟨lead, hsplit, hlead⟩ := hrest.split
  have htext : l.text = Layout.text ⟨lead⟩ ++ behind.text := by
    rw [Layout.text, hsplit, List.map_append, String.join_append]
    rfl
  have hblanks : ∀ b ∈ (Text.spaces n).toList, isAsciiBlank b = true := fun b hb ↦ by
    rw [Text.spaces, String.toList_ofList] at hb
    rw [List.eq_of_mem_replicate hb]
    rfl
  rw [String.toList_append]
  rcases hlead with rfl | ⟨s, rfl⟩
  · have heq : l.text = behind.text := htext.trans String.empty_append
    exact ⟨Gap.blanks_append hblanks (heq ▸ h.gap), fun hne hnil ↦
      hne (heq.trans (String.append_eq_empty_iff.mp hnil).2)⟩
  · obtain ⟨hne, hall⟩ := h.spaces s (by rw [hsplit]; simp)
    have hs : Layout.text ⟨[.space s]⟩ = s := by simp [Layout.text, Piece.text]
    rw [hs] at htext
    have hgap := h.gap
    rw [htext, String.toList_append] at hgap
    refine ⟨Gap.blanks_append hblanks (hgap.drop_spaces (fun b hb ↦ (hall b hb).1) fun hb ↦
      (hall _ hb).2 rfl), fun _ hnil ↦ ?_⟩
    obtain ⟨c, cs, hcs⟩ := List.exists_cons_of_ne_nil (l := s.toList) (by simpa using hne)
    obtain ⟨d, hd, -⟩ := hrest.apart ⟨c, by rw [htext, String.toList_append, hcs]; rfl,
      isBlank_of_isAsciiBlank (hall c (by rw [hcs]; exact List.mem_cons_self)).1⟩
    rw [hnil] at hd
    cases hd

end Layout

namespace Text

theorem byteSize_eq_length {cs : List Char} (h : ∀ c ∈ cs, c.utf8Size = 1) :
    byteSize cs = cs.length := by
  induction cs with
  | nil => rfl
  | cons c cs ih =>
    obtain ⟨hc, hcs⟩ := List.forall_mem_cons.mp h
    change c.utf8Size + byteSize cs = cs.length + 1
    rw [hc, ih hcs, Nat.add_comm]

theorem utf8Size_of_isDigit {d : Char} (hd : d.isDigit = true) : d.utf8Size = 1 := by
  simpa using eq_false_of_isDigit hd (·.utf8Size != 1) (by decide)

end Text

/-- An integer is as many bytes long as it has characters. -/
theorem Number.IsIntegerText.byteSize_eq {cs : List Char} (h : IsIntegerText cs) :
    byteSize cs = cs.length := by
  obtain ⟨sgn, ds, rfl, hsgn, -, hds⟩ := exists_signed h
  refine byteSize_eq_length
    (List.forall_mem_append.mpr ⟨?_, fun d hd ↦ utf8Size_of_isDigit (hds d hd)⟩)
  rcases hsgn with rfl | rfl | rfl
  · exact List.forall_mem_singleton.mpr rfl
  · exact List.forall_mem_singleton.mpr rfl
  · exact List.forall_mem_nil _

namespace Field

/-! ## Fields of lists -/

/-- The field holds a real number or an open place; its token, if it has one, is an integer. -/
structure IsTidy (f : Field) : Prop where
  kind_eq : f.kind = .real
  plain : f.signFlag.apart = false
  real : ∀ v ∈ f.value, v.kind = .real
  read : f.token = none ∧ f.asRead = none ∨ ∃ token x, f.token = some token ∧
    f.asRead = some (.real x) ∧ Number.IsIntegerText token.toList ∧
    Number.readReal? token = some x ∧ byteSize token.toList ≤ Limits.tokenBytes
  gap : ∀ l ∈ f.layout, l.IsGap false

variable {f : Field} {n : Int}

/-- What a style keeps of the width of its token. -/
theorem zeroWidth_style_le {width : Nat}
    (hread : ∀ token ∈ f.token, byteSize token.toList ≤ width) : f.style.zeroWidth ≤ width := by
  have hplaces (style : NumberStyle) (cs : List Char) :
      (style.withPlaces cs).zeroWidth = style.zeroWidth := by
    unfold NumberStyle.withPlaces
    split <;> rfl
  have hreal (style : NumberStyle) (cs : List Char) :
      (style.ofRealToken cs).zeroWidth = style.zeroWidth := by
    unfold NumberStyle.ofRealToken
    split
    · dsimp only
      rw [hplaces]
      split <;> rfl
    · rw [hplaces]
  have hnumeric (style : NumberStyle) (cs : List Char) :
      (style.ofNumericToken cs).zeroWidth ≤ byteSize cs := by
    unfold NumberStyle.ofNumericToken
    dsimp only
    split_ifs <;> simp
  unfold style
  cases htoken : f.token with
  | none => exact Nat.zero_le _
  | some token =>
    have hle := (hnumeric {
      NumberStyle.plain with
      recovered := true
      width := token.utf8ByteSize + f.spaceWidth } token.toList).trans (hread token htoken)
    dsimp only
    split_ifs
    · exact Nat.zero_le _
    · rwa [hreal]
    · exact hle

/-- The text is blanks, a word for the number, and a gap, which is not empty if the layout of the
field has a text. -/
def WritesWord (f : Field) (n : Int) (text : List Char) : Prop :=
  ∃ k w g x, text = (spaces k).toList ++ (w ++ g) ∧ IsWord (.value (.real x)) w ∧ HoldsInt x n ∧
    byteSize w ≤ Limits.tokenBytes ∧ Gap false none g ∧ (layoutText f.layout ≠ "" → g ≠ [])

namespace IsTidy

/-- A whole number that is not too large is written as an integer. -/
theorem render_eq (h : f.IsTidy) {x : Float} (hx : HoldsInt x n) (hn : n.natAbs < 10 ^ 5) :
    f.style.render .standard (.real x) = Number.renderInt n f.style.zeroWidth f.style.sign := by
  rcases h.read with ⟨hnone, -⟩ | ⟨token, x₀, htoken, -, hinteger, -⟩
  · have hstyle : f.style = .plain := by rw [style, hnone]
    rw [hstyle]
    exact (hx.renderReal_plain hn .standard).trans (Number.renderInt_plain n).symm
  · have hmin : Number.minInt = -2 ^ 63 := rfl
    have hmax : Number.maxInt = 2 ^ 63 - 1 := rfl
    have hheld : max Number.minInt (min Number.maxInt n) = n := by omega
    exact (hx.renderReal_whole (whole_style h.kind_eq htoken hinteger) _).trans (by rw [hheld])

theorem text_layout (f : Field) : layoutText f.layout = f.layoutOrEmpty.text := by
  rw [layoutOrEmpty, Layout.text_getD]

theorem isGap_layoutOrEmpty (h : f.IsTidy) : f.layoutOrEmpty.IsGap false := by
  rw [layoutOrEmpty]
  cases hl : f.layout with
  | none => exact Layout.isGap_empty
  | some l => exact h.gap l hl

/-- A token that stays is read as a number that is close enough. -/
theorem writesWord_of_kept (h : f.IsTidy) (hsigned : f.signed = some (.real (Float.ofInt n)))
    (hn : n.natAbs < 10 ^ 5) (hkept : f.hasChanged .standard = false) :
    f.WritesWord n (f.render .standard).text.toList := by
  rcases h.read with ⟨-, hnone⟩ | ⟨token, x₀, htoken, hasRead, hinteger, hread, hshort⟩
  · rw [hasChanged, hsigned, hnone] at hkept
    cases hkept
  · have hclose : Tolerance.standard.close (Float.ofInt n) x₀ = true := by
      rw [hasChanged, hsigned, hasRead] at hkept
      simpa [Value.close, Value.toReal?] using hkept
    obtain ⟨y, hy, hintegral, -⟩ := hinteger.readReal?_eq
    rw [String.ofList_toList, hread] at hy
    obtain rfl := Option.some.inj hy
    refine ⟨0, token.toList, f.layoutOrEmpty.text.toList, x₀, ?_,
      .number hinteger (by rwa [String.ofList_toList]),
      hintegral.holdsInt_of_close (hn.trans (by decide)) hclose, hshort,
      h.isGap_layoutOrEmpty.gap, fun hne ↦ ?_⟩
    · rw [render, hkept, htoken, text_layout]
      simp [spaces]
    · rwa [text_layout, ne_eq, ← String.toList_eq_nil_iff] at hne

/-- A number that fills the width of its token is no longer than a token may be. -/
theorem byteSize_le (h : f.IsTidy) {cs : List Char} (hinteger : Number.IsIntegerText cs)
    (hn : n.natAbs < 10 ^ 5)
    (hlength : cs.length ≤ max f.style.zeroWidth ((Nat.toDigits 10 n.natAbs).length + 1)) :
    byteSize cs ≤ Limits.tokenBytes := by
  have hdigits := (Nat.length_toDigits_le_iff (by decide : 1 < 10) (by decide : 0 < 5)).mpr hn
  have hwidth : f.style.zeroWidth ≤ Limits.tokenBytes := zeroWidth_style_le fun token htoken ↦ by
    rcases h.read with ⟨hnone, -⟩ | ⟨token', x₀, htoken', -, -, -, hshort⟩
    · rw [hnone] at htoken
      cases htoken
    · obtain rfl : token' = token := Option.some.inj (htoken'.symm.trans htoken)
      exact hshort
  have hlimit : Limits.tokenBytes = 4096 := rfl
  rw [hinteger.byteSize_eq]
  omega

/-- A number that is written anew takes from the layout behind it the blanks that it needs. -/
theorem writesWord_of_changed (h : f.IsTidy) (hsigned : f.signed = some (.real (Float.ofInt n)))
    (hn : n.natAbs < 10 ^ 5) (hchanged : f.hasChanged .standard = true) :
    f.WritesWord n (f.render .standard).text.toList := by
  have hx : HoldsInt (Float.ofInt n) n := holdsInt_ofInt (hn.trans (by decide))
  obtain ⟨lead, cs, hspells, hlead, hinteger, hvalue, hlength⟩ :=
    Number.renderInt_spells n f.style.zeroWidth f.style.sign
  rw [← h.render_eq hx hn] at hspells
  obtain ⟨before, rfl⟩ : ∃ k, lead = (spaces k).toList := by
    rcases hlead with rfl | rfl
    · exact ⟨0, rfl⟩
    · exact ⟨1, rfl⟩
  obtain ⟨k, rest, hafter, hrest⟩ :=
    f.exists_afterValue h.isGap_layoutOrEmpty.hasBlankSpaces f.style
      (f.style.render .standard (.real (Float.ofInt n)))
  obtain ⟨hgap, hne⟩ := h.isGap_layoutOrEmpty.of_isRest hrest
  obtain ⟨y, hread, -, hholds⟩ := hinteger.readReal?_eq
  have hy : HoldsInt y n := by
    rw [hvalue] at hholds
    exact hholds hx.isExact
  have hrendered : f.style.render .standard (.real (Float.ofInt n)) =
      spaces before ++ String.ofList cs := by
    rw [← String.toList_inj, String.toList_append, String.toList_ofList]
    exact hspells
  rw [List.length_append] at hlength
  refine ⟨before, cs, _, y, ?_, .number hinteger hread, hy,
    h.byteSize_le hinteger hn ((Nat.le_add_left ..).trans hlength), hgap, fun hlayout ↦ ?_⟩
  · rw [render, hchanged, hsigned]
    simp only [Bool.not_true, Bool.false_eq_true, if_false, renderChanged, hafter, padRight_eq]
    rw [← spaces_append_spaces]
    simp only [hrendered, String.toList_append, String.toList_ofList, List.append_assoc]
  · rw [text_layout] at hlayout
    simpa using hne hlayout

/-- The number that the field holds stands behind a blank or none and in front of a gap. -/
theorem writesWord (h : f.IsTidy) (hvalue : f.value = some (.real (Float.ofInt n)))
    (hn : n.natAbs < 10 ^ 5) : f.WritesWord n (f.render .standard).text.toList := by
  have hsigned : f.signed = some (.real (Float.ofInt n)) := by rw [signed, h.plain]; exact hvalue
  cases hchanged : f.hasChanged .standard with
  | false => exact h.writesWord_of_kept hsigned hn hchanged
  | true => exact h.writesWord_of_changed hsigned hn hchanged

end IsTidy

end Field

/-!
## Jumps and repeats in front of gaps

A jump or a repeat with an integer for its count is written as the count and a letter, unless its
count is padded to the width of an older one.
-/

section

open Text Lexer

/-! ## Counts -/

/-- A number that is not negative is written as zeros and its digits. -/
theorem Number.exists_renderInt_digits (n width : Nat) : ∃ k,
    (renderInt n width .negativeOnly).toList = List.replicate k '0' ++ Nat.toDigits 10 n := by
  have hneg : decide ((n : Int) < 0) = false := decide_eq_false (by omega)
  refine ⟨width - ("".length + (toString n).length), ?_⟩
  rw [renderInt, hneg, zeroFill, SignStyle.mark, if_neg Bool.false_ne_true, String.empty_append,
    String.toList_append, String.toList_ofList, Int.natAbs_natCast, Nat.toString_eq_ofList_toDigits,
    String.toList_ofList]

theorem NumberStyle.signOf_of_isDigit {d : Char} (hd : d.isDigit = true) (ds : List Char) :
    signOf (d :: ds) = .negativeOnly := by
  unfold signOf
  split
  · next heq => rw [(List.cons.inj heq).1] at hd; cases hd
  · next heq => rw [(List.cons.inj heq).1] at hd; cases hd
  · rfl

namespace Shorthand

/-- The field of a count that was read from digits. -/
def countField (ds : List Char) (m : Nat) : Field :=
  (Field.ofInt (String.ofList ds) m none).neverPad

/-- The run is a jump or a repeat; its count, if it has one, is digits, and its letter is one. -/
structure IsTidy (s : Shorthand) : Prop where
  counts : s.kind = .jump ∨ s.kind = .copies
  letter : ∃ c, s.letters.toList = [c] ∧ c.toLower = countedLetter s.kind
  count : ∀ f ∈ s.count, ∃ ds : List Char, ∃ m : Nat, ds ≠ [] ∧ (∀ d ∈ ds, d.isDigit = true) ∧
    ds.length < Limits.tokenBytes ∧ Decimal.natOfDigits ds = m ∧ m ≤ Limits.shorthandCount ∧
    f = countField ds m
  gap : ∀ l ∈ s.endLayout, l.IsGap false

/-- No count is padded. -/
def IsTight (s : Shorthand) (n : Nat) : Prop := ' ' ∉ (s.renderCount .standard n).text.toList

instance (s : Shorthand) (n : Nat) : Decidable (s.IsTight n) :=
  inferInstanceAs (Decidable (' ' ∉ (s.renderCount .standard n).text.toList))

/-- The item that the run is written as. -/
def item (s : Shorthand) (n : Nat) : WrittenItem := if s.kind = .jump then .jump n else .copies n

/-- The text of a count is digits, or nothing if the count is one. -/
def SpellsCount (n : Nat) (ds : List Char) : Prop :=
  (∀ d ∈ ds, d.isDigit = true) ∧ ds.length < Limits.tokenBytes ∧
    (ds = [] ∧ n = 1 ∨ ds ≠ [] ∧ Decimal.natOfDigits ds = n)

section Counts

variable {n m : Nat} {ds : List Char}

theorem natOfDigits_toDigits (n : Nat) : Decimal.natOfDigits (Nat.toDigits 10 n) = n :=
  Nat.ofDigitChars_toDigits (by decide) (by decide)

theorem length_toDigits_le (hn : n ≤ Limits.shorthandCount) : (Nat.toDigits 10 n).length ≤ 6 := by
  have hlimit : Limits.shorthandCount = 100000 := rfl
  exact (Nat.length_toDigits_le_iff (by decide : 1 < 10) (by decide : 0 < 6)).mpr (by omega)

theorem spellsCount_toDigits (hn : n ≤ Limits.shorthandCount) :
    SpellsCount n (Nat.toDigits 10 n) := by
  have hlimit : Limits.tokenBytes = 4096 := rfl
  have hlength := length_toDigits_le hn
  exact ⟨isDigit_of_mem_toDigits, by omega, .inr ⟨toDigits_ne_nil n, natOfDigits_toDigits n⟩⟩

/-- A count that is written anew is filled up with zeros to the width of its token, if it is not
padded. -/
theorem spellsCount_of_changed (hne : ds ≠ []) (hds : ∀ d ∈ ds, d.isDigit = true)
    (hlength : ds.length < Limits.tokenBytes) (hn : n ≤ Limits.shorthandCount)
    (htight : ' ' ∉
      (((countField ds m).setValue (some (.int n))).renderChanged .standard (.int n)).text.toList) :
    SpellsCount n (((countField ds m).setValue (some (.int n))).renderChanged .standard
      (.int n)).text.toList := by
  set g := (countField ds m).setValue (some (.int n)) with hg
  obtain ⟨k, hk⟩ := Number.exists_renderInt_digits n g.style.zeroWidth
  have hsign : g.style.sign = .negativeOnly := by
    obtain ⟨d, ds, rfl⟩ := List.exists_cons_of_ne_nil hne
    have hstyle : g.style.sign = NumberStyle.signOf (String.ofList (d :: ds)).toList := rfl
    rw [hstyle, String.toList_ofList, NumberStyle.signOf_of_isDigit (hds d List.mem_cons_self)]
  have hrendered :
      (g.style.render .standard (.int n)).toList = List.replicate k '0' ++ Nat.toDigits 10 n := by
    rw [← hk, ← hsign]
    rfl
  have htext : (g.renderChanged .standard (.int n)).text =
      g.style.render .standard (.int n) ++
      spaces (g.style.width - (g.style.render .standard (.int n)).length) := by
    have hafter : g.afterValue g.style (g.style.render .standard (.int n)) = ("", "") := rfl
    simp only [Field.renderChanged, hafter, padRight_eq, String.append_empty]
  rw [htext, String.toList_append, List.mem_append, not_or] at htight
  have hzero : g.style.width - (g.style.render .standard (.int n)).length = 0 := by
    simpa [spaces, List.mem_replicate] using htight.2
  have hwidth : g.style.zeroWidth ≤ ds.length := Field.zeroWidth_style_le fun token htoken ↦ by
    obtain rfl : String.ofList ds = token := Option.some.inj htoken
    rw [String.toList_ofList, byteSize_eq_length fun d hd ↦ utf8Size_of_isDigit (hds d hd)]
  obtain ⟨_, _, hspells, -, -, -, hbound⟩ :=
    Number.renderInt_spells n g.style.zeroWidth .negativeOnly
  rw [← hspells, hk, Int.natAbs_natCast] at hbound
  rw [htext, hzero, String.toList_append, hrendered]
  refine ⟨?_, ?_, .inr ⟨?_, ?_⟩⟩
  · refine List.forall_mem_append.mpr
      ⟨List.forall_mem_append.mpr ⟨fun d hd ↦ ?_, isDigit_of_mem_toDigits⟩, by simp [spaces]⟩
    rw [List.eq_of_mem_replicate hd]
    rfl
  · have hlimit : Limits.tokenBytes = 4096 := rfl
    have hdigits := length_toDigits_le hn
    rw [List.length_append]
    simp only [spaces, List.replicate_zero, String.toList_ofList, List.length_nil]
    omega
  · exact List.append_ne_nil_of_left_ne_nil
      (List.append_ne_nil_of_right_ne_nil _ (toDigits_ne_nil n)) _
  · simp only [spaces, List.replicate_zero, String.toList_ofList, List.append_nil]
    rw [Number.natOfDigits_zeros, natOfDigits_toDigits]

end Counts

namespace IsTidy

variable {s : Shorthand} {n : Nat}

/-- The count is written as digits, or not at all if it is one. -/
theorem spellsCount (h : s.IsTidy) (hn : n ≤ Limits.shorthandCount) (htight : s.IsTight n) :
    SpellsCount n (s.renderCount .standard n).text.toList := by
  unfold IsTight at htight
  unfold renderCount at htight ⊢
  cases hcount : s.count with
  | none =>
    dsimp only
    rw [Rendered.text_ofText]
    split_ifs with hone
    · exact ⟨List.forall_mem_nil _, by decide, .inl ⟨rfl, hone⟩⟩
    · rw [Nat.toString_eq_ofList_toDigits, String.toList_ofList]
      exact spellsCount_toDigits hn
  | some f =>
    obtain ⟨ds, m, hne, hds, hlength, hm, hlimit, rfl⟩ := h.count f hcount
    rw [hcount] at htight
    have hchanged : ((countField ds m).setValue (some (.int n))).hasChanged .standard =
        !Tolerance.standard.close (Float.ofInt n) (Float.ofInt m) := rfl
    change ' ' ∉ (((countField ds m).setValue (some (.int n))).render
      .standard).text.toList at htight
    change SpellsCount n (((countField ds m).setValue (some (.int n))).render .standard).text.toList
    unfold Field.render at htight ⊢
    rw [hchanged, Bool.not_not] at htight ⊢
    split_ifs at htight ⊢ with hclose
    · -- The token stays.
      have hbound : Limits.shorthandCount = 100000 := rfl
      have hheld {k : Nat} (hk : k ≤ Limits.shorthandCount) : HoldsInt (Float.ofInt k) k :=
        holdsInt_ofInt (by omega)
      have heq : (n : Int) = m :=
        (hheld hn).eq_of_close_of_lt (hheld hlimit) (by omega) (by omega) hclose
      have htext :
        (Rendered.ofText (((((countField ds m).setValue (some (.int n))).token).getD "") ++
          layoutText ((countField ds m).setValue (some (.int n))).layout)).text.toList = ds := by
        simp [countField, Field.setValue, Field.neverPad, Field.ofInt, layoutText]
      rw [htext]
      exact ⟨hds, hlength, .inr ⟨hne, hm.trans (by omega)⟩⟩
    · exact spellsCount_of_changed hne hds hlength hn htight

/-- The count and the letter are one word. -/
theorem exists_word (h : s.IsTidy) (hn : n ≤ Limits.shorthandCount) (htight : s.IsTight n) : ∃ w,
    (s.renderCount .standard n).text.toList ++ s.letters.toList = w ∧ IsWord (s.item n) w ∧
      byteSize w ≤ Limits.tokenBytes := by
  obtain ⟨hds, hlength, hvalue⟩ := h.spellsCount hn htight
  generalize (s.renderCount .standard n).text.toList = ds at hds hlength hvalue ⊢
  obtain ⟨c, hletters, hc⟩ := h.letter
  rw [hletters]
  have hwritten : WrittenItem.writtenCount (String.ofList (ds ++ [c])) = n := by
    have htake : (ds ++ [c]).takeWhile Char.isDigit = ds := by
      rw [List.takeWhile_append_of_pos hds, List.takeWhile_cons_of_neg, List.append_nil]
      simpa using eq_false_of_countLetter hc Char.isDigit (by decide)
    rw [WrittenItem.writtenCount, String.toList_ofList, htake]
    rcases hvalue with ⟨rfl, rfl⟩ | ⟨hne, hvalue⟩
    · rfl
    · rw [if_neg (by simpa using hne), hvalue]
  have hcount? : WrittenItem.count? (String.ofList (ds ++ [c])) = some n := by
    rw [WrittenItem.count?, hwritten, if_pos hn]
  refine ⟨_, rfl, .counted h.counts hds hc fun ts ↦ ?_, ?_⟩
  · unfold item
    rcases h.counts with hkind | hkind <;> rw [hkind, WrittenItem.ofShorthand?, hcount?] <;> rfl
  · rw [byteSize_eq_length, List.length_append, List.length_singleton]
    · exact hlength
    · refine List.forall_mem_append.mpr ⟨fun d hd ↦
        utf8Size_of_isDigit (hds d hd), List.forall_mem_singleton.mpr ?_⟩
      simpa using eq_false_of_countLetter hc (·.utf8Size != 1) (by decide)

end IsTidy

end Shorthand

end

/-!
## Lists from their parts

The parts of a list are put one behind the other, with a blank between two that would touch.  If
each of them is the text of its items, then all of them are the text of all items.
-/

section

open Text Lexer

/-! ## Parts -/

/-- The text of some items.  What stands behind it must not touch it if no blank is at its end. -/
structure IsPart (is : List WrittenItem) (q : List Char) : Prop where
  ne_nil : q ≠ []
  strung : ∀ {atEnd js cs}, Strung atEnd js cs → (∀ c ∈ q.getLast?, isBlank c = false → Closes cs) →
    Strung atEnd (is ++ js) (q ++ cs)

variable {i : WrittenItem} {is js : List WrittenItem} {k : Nat}
  {w g q cs : List Char} {atEnd : Bool}

theorem isAsciiBlank_of_mem_spaces : ∀ c ∈ (spaces k).toList, isAsciiBlank c = true := fun c hc ↦ by
  rw [spaces, String.toList_ofList] at hc
  rw [List.eq_of_mem_replicate hc]
  rfl

/-- A word behind blanks and in front of a gap and more text. -/
theorem Strung.spaced (hw : IsWord i w) (hshort : byteSize w ≤ Limits.tokenBytes)
    (hg : Gap false none g) (hcloses : g = [] → Closes cs) (h : Strung atEnd is cs) :
    Strung atEnd (i :: is) ((spaces k).toList ++ (w ++ g) ++ cs) := by
  have hword : Strung atEnd (i :: is) ([] ++ (w ++ (g ++ cs))) :=
    .word .nil hw hshort (hg.closes hcloses) (h.gap_append hg)
  rw [List.append_assoc, List.append_assoc]
  exact hword.gap_append (.of_blanks isAsciiBlank_of_mem_spaces)

namespace IsPart

theorem word (hw : IsWord i w) (hshort : byteSize w ≤ Limits.tokenBytes) (hg : Gap false none g) :
    IsPart [i] ((spaces k).toList ++ (w ++ g)) where
  ne_nil := by simp [hw.ne_nil]
  strung h hcloses := .spaced hw hshort hg (fun hnil ↦ by
    have hlast := List.getLast?_eq_some_getLast hw.ne_nil
    refine hcloses _ ?_ (hw.isBlank_eq_false _ (List.getLast_mem hw.ne_nil))
    rw [hnil, List.append_nil, List.getLast?_append, hlast]
    rfl) h

/-- A word and a gap in front of a part. -/
theorem cons (hw : IsWord i w) (hshort : byteSize w ≤ Limits.tokenBytes) (hg : Gap false none g)
    (hne : g ≠ []) (h : IsPart is q) : IsPart (i :: is) ((spaces k).toList ++ (w ++ g) ++ q) where
  ne_nil := by simp [hw.ne_nil]
  strung hrest hcloses := by
    rw [List.append_assoc _ q]
    refine .spaced hw hshort hg (fun hnil ↦ absurd hnil hne)
      (h.strung hrest fun c hc ↦ hcloses c ?_)
    rw [List.getLast?_append, hc]
    rfl

end IsPart

/-! ## Joined parts -/

namespace FieldList

/-- Parts that are joined behind a text, and a gap behind them, add the text of their items to it.
It does not touch what stands in front. -/
theorem exists_strung {iss : List (List WrittenItem)} {parts : List Rendered} {tail : String}
    {spaced : Bool} (h : List.Forall₂ (fun is part ↦ IsPart is part.text.toList) iss parts)
    (hspaced : parts ≠ [] → spaced = true) (htail : Gap atEnd none tail.toList)
    (hroom : atEnd = false → tail.toList ≠ []) (out : Rendered) : ∃ cs,
      ((parts.foldl (addPart spaced) out).text ++ tail).toList = out.text.toList ++ cs ∧
      Strung atEnd iss.flatten cs ∧
        (∀ c ∈ out.text.toList.getLast?, isBlank c = false → Closes cs) := by
  induction h generalizing out with
  | nil =>
    refine ⟨tail.toList, String.toList_append, .last htail hroom, fun _ _ _ ↦ ?_⟩
    have hcloses : Closes (tail.toList ++ []) := htail.closes fun _ ↦ closes_nil
    rwa [List.append_nil] at hcloses
  | @cons is part iss parts hpart _ ih =>
    obtain rfl := hspaced (List.cons_ne_nil _ _)
    obtain ⟨cs, htext, hstrung, hcloses⟩ := ih (fun _ ↦ rfl) (addPart true out part)
    have hlast {before : List Char} :
        ∀ c ∈ part.text.toList.getLast?, c ∈ (before ++ part.text.toList).getLast? :=
      fun c hc ↦ by rw [List.getLast?_append, hc]; rfl
    rw [List.foldl_cons, List.flatten_cons, htext]
    unfold addPart at hcloses ⊢
    split_ifs at hcloses ⊢ with hgap
    · simp only [Rendered.text_append, Rendered.text_ofText, String.toList_append] at hcloses ⊢
      refine ⟨' ' :: (part.text.toList ++ cs), by simp, ?_, fun _ _ _ ↦ closes_of_isBlank rfl _⟩
      exact Strung.gap_append (g := [' ']) (.blank rfl .nil)
        (hpart.strung hstrung fun c hc ↦ hcloses c (hlast c hc))
    · simp only [Rendered.text_append, String.toList_append] at hcloses ⊢
      refine ⟨part.text.toList ++ cs, by
        simp, hpart.strung hstrung fun c hc ↦ hcloses c (hlast c hc), fun c hc hsolid ↦ ?_⟩
      -- No gap was put in, so the part has a blank of its own in front.
      obtain ⟨d, ds, hd⟩ := List.exists_cons_of_ne_nil hpart.ne_nil
      have hends : endsBlank out.text = false := by rw [endsBlank, hc]; exact hsolid
      have hstarts : startsBlank part.text = isBlank d := by rw [startsBlank, hd]; rfl
      have hblank : isBlank d = true := by simpa [hends, hstarts] using hgap
      rw [hd]
      exact closes_of_isBlank hblank _

end FieldList

/-! ## Items -/

/-- Items that hold these numbers behind a last one, with their counts and gaps in order. -/
inductive Holding : Option Int → List Item → List (Option Int) → Prop where
  | nil {before : Option Int} : Holding before [] []
  | field {before : Option Int} {f : Field} {n : Int} {items : List Item} {ns : List (Option Int)}
      (tidy : f.IsTidy) (value : f.value = some (.real (Float.ofInt n))) (small : n.natAbs < 10 ^ 5)
      (rest : Holding (some n) items ns) : Holding before (.field f :: items) (some n :: ns)
  | jump {before : Option Int} {s : Shorthand} {items : List Item} {ns : List (Option Int)}
      (tidy : s.IsTidy) (kind : s.kind = .jump) (nonempty : s.members ≠ [])
        (tight : s.IsTight s.places)
      (rest : Holding none items ns) :
        Holding before (.run s :: items) (List.replicate s.members.length none ++ ns)
  | chained {n : Int} {s : Shorthand} {items : List Item} {ns : List (Option Int)} (tidy : s.IsTidy)
      (kind : s.kind = .copies) (chained : s.chained = true) (tight : s.IsTight s.places)
      (rest : Holding (some n) items ns) :
      Holding (some n) (.run s :: items) (List.replicate s.members.length (some n) ++ ns)
  | copies {before : Option Int} {f : Field} {fs : List Field} {n : Int} {s : Shorthand}
      {items : List Item} {ns : List (Option Int)} (tidy : s.IsTidy) (kind : s.kind = .copies)
        (chained : s.chained = false)
      (members : s.members = f :: fs) (lead : f.IsTidy)
        (value : f.value = some (.real (Float.ofInt n)))
      (small : n.natAbs < 10 ^ 5) (room : layoutText f.layout ≠ "") (tight : s.IsTight s.places)
      (rest : Holding (some n) items ns) :
      Holding before (.run s :: items) (some n :: (List.replicate fs.length (some n) ++ ns))

namespace Shorthand.IsTidy

variable {s : Shorthand} {n : Nat}

theorem gap_endLayout (h : s.IsTidy) : Gap false none (layoutText s.endLayout).toList := by
  cases hl : s.endLayout with
  | none => exact .nil
  | some l => exact (h.gap l hl).gap

/-- The count, the letter and the layout of the run are one part. -/
theorem isPart (h : s.IsTidy) (hn : n ≤ Limits.shorthandCount) (htight : s.IsTight n) :
    IsPart [s.item n]
      ((s.renderCount .standard n).text.toList ++ s.letters.toList ++
      (layoutText s.endLayout).toList) := by
  obtain ⟨w, htext, hw, hshort⟩ := h.exists_word hn htight
  rw [htext]
  exact .word (k := 0) hw hshort h.gap_endLayout

end Shorthand.IsTidy

/-- A run without a first value of its own counts all its members. -/
theorem Shorthand.IsTidy.places_eq {s : Shorthand} (h : s.IsTidy) (hlead : s.hasLead = false) :
    s.places = s.members.length := by
  rcases h.counts with hkind | hkind <;>
    simp [places, leadCount, hlead, hkind, ShorthandKind.isInterpolation]

namespace Shorthand

variable {s : Shorthand} {f : Field} {fs : List Field} {n : Int}

/-- A run without a first value of its own is a part. -/
theorem IsTidy.isPart_render (h : s.IsTidy) (hlead : s.hasLead = false)
    (hmembers : s.kind = .jump → s.members ≠ [])
    (hlength : s.members.length ≤ Limits.shorthandCount) (htight : s.IsTight s.places) :
    IsPart [s.item s.members.length] (s.render .standard).text.toList := by
  have htext : (s.render .standard).text.toList =
    (s.renderCount .standard s.members.length).text.toList ++
      s.letters.toList ++ (layoutText s.endLayout).toList := by
    rcases h.counts with hkind | hkind
    · have hmembers : s.members.isEmpty = false := by simpa using hmembers hkind
      simp only [render, hkind, hmembers, Bool.false_eq_true, if_false, Rendered.text_append,
        Rendered.text_ofText, String.toList_append]
    · have hfirst : s.renderLead .standard = .empty := by
        unfold renderLead
        split <;> simp [hlead]
      simp only [render, hkind, hfirst, leadCount, hlead, Bool.false_eq_true, if_false,
        Nat.sub_zero, Rendered.text_append, Rendered.text_ofText, String.toList_append]
      rfl
  rw [h.places_eq hlead] at htight
  rw [htext]
  exact h.isPart hlength htight

/-- A repeat behind its own first value is a part. -/
theorem IsTidy.isPart_render_of_lead (h : s.IsTidy) (hkind : s.kind = .copies)
    (hchained : s.chained = false) (hmembers : s.members = f :: fs)
    (hlength : fs.length ≤ Limits.shorthandCount) (htight : s.IsTight s.places) (hlead : f.IsTidy)
    (hvalue : f.value = some (.real (Float.ofInt n))) (hn : n.natAbs < 10 ^ 5)
    (hroom : layoutText f.layout ≠ "") : ∃ x, HoldsInt x n ∧
      IsPart [.value (.real x), .copies fs.length] (s.render .standard).text.toList := by
  have hhas : s.hasLead = true := by simp [hasLead, hchained, hkind]
  have hplaces : s.places = fs.length := by
    simp [places, hmembers, leadCount, hhas, hkind, ShorthandKind.isInterpolation]
  have htext : (s.render .standard).text.toList = (f.render .standard).text.toList ++
      ((s.renderCount .standard fs.length).text.toList ++ s.letters.toList ++
      (layoutText s.endLayout).toList) := by
    have hfirst : s.renderLead .standard = f.render .standard := by
      rw [renderLead, hmembers]
      exact if_pos hhas
    have hcount : s.members.length - s.leadCount = fs.length := by simp [hmembers, leadCount, hhas]
    simp only [render, hkind, hfirst, hcount, Rendered.text_append, Rendered.text_ofText,
      String.toList_append, List.append_assoc]
  rw [hplaces] at htight
  have hpart := h.isPart hlength htight
  rw [item, if_neg (by rw [hkind]; decide)] at hpart
  obtain ⟨k, w, g, x, hfield, hw, hx, hshort, hg, hgap⟩ := hlead.writesWord hvalue hn
  refine ⟨x, hx, ?_⟩
  rw [htext, hfield]
  exact .cons hw hshort hg (hgap hroom) hpart

end Shorthand

/-- Each of the items is a part, and together they stand for the numbers. -/
theorem Holding.exists_parts {before : Option Int} {items : List Item} {ns : List (Option Int)}
    (h : Holding before items ns) (hns : ns.length ≤ Limits.shorthandCount) : ∃ iss,
      List.Forall₂ (fun is part ↦ IsPart is part.text.toList)
        iss (items.map (Item.render .standard)) ∧ Stands before iss.flatten ns := by
  induction h with
  | nil => exact ⟨[], .nil, .nil⟩
  | @field before f n items ns tidy value small rest ih =>
    obtain ⟨iss, hparts, hstands⟩ := ih (Nat.le_of_succ_le hns)
    obtain ⟨k, w, g, x, htext, hw, hx, hshort, hg, -⟩ := tidy.writesWord value small
    exact ⟨[.value (.real x)] :: iss, .cons (by rw [Item.render, htext]; exact .word hw hshort hg)
      hparts, .value hx hstands⟩
  | @jump before s items ns tidy kind nonempty tight rest ih =>
    rw [List.length_append, List.length_replicate] at hns
    obtain ⟨iss, hparts, hstands⟩ := ih (by omega)
    have hlead : s.hasLead = false := by simp [Shorthand.hasLead, kind]
    have hpart := tidy.isPart_render hlead (fun _ ↦ nonempty) (by omega) tight
    rw [Shorthand.item, if_pos kind] at hpart
    exact ⟨_ :: iss, .cons hpart hparts, .jump hstands⟩
  | @chained n s items ns tidy kind chained tight rest ih =>
    rw [List.length_append, List.length_replicate] at hns
    obtain ⟨iss, hparts, hstands⟩ := ih (by omega)
    have hjump : s.kind ≠ .jump := by rw [kind]; decide
    have hlead : s.hasLead = false := by simp [Shorthand.hasLead, chained]
    have hpart := tidy.isPart_render hlead (fun hkind ↦ absurd hkind hjump) (by omega) tight
    rw [Shorthand.item, if_neg hjump] at hpart
    exact ⟨_ :: iss, .cons hpart hparts, .copies hstands⟩
  | @copies before f fs n s items ns tidy kind chained members lead value
      small room tight rest ih =>
    rw [List.length_cons, List.length_append, List.length_replicate] at hns
    obtain ⟨iss, hparts, hstands⟩ := ih (by omega)
    obtain ⟨x, hx, hpart⟩ :=
      tidy.isPart_render_of_lead kind chained members (by omega) tight lead value small room
    exact ⟨_ :: iss, .cons hpart hparts, .value hx (.copies hstands)⟩

end

end TransportDeck
