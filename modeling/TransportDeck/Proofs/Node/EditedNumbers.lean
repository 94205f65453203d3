import TransportDeck.Proofs.Input.Lines
import TransportDeck.Proofs.Node.Echo
import TransportDeck.Proofs.Node.NormalLayouts
import TransportDeck.Proofs.Number.IntegerText
import TransportDeck.Proofs.Token.LongerTexts

/-!
# Numbers that are set

An integer that is set in the place of another is written as itself, in the style of the token and
in front of the same layout.  If the tolerance takes the two for the same, the token stays.

A whole float that is set in the place of an integer is written as an integer, in the style of the
token.  The integer goes through 64 bits: up to their ends it is read back as the same float, and
beyond them as the end.
-/

namespace TransportDeck

open Text

/-! ## Spaces in layouts -/

namespace Lexer

/-- A token of blanks has nothing else in it, wherever it stands. -/
theorem isBlank_of_mem_space {mode : LexMode} {record : String} {ts : List Token} {t : Token}
    (h : tokenize mode record = .ok ts) (ht : t ∈ ts) (hspace : t.kind = .space) :
    ∀ c ∈ t.text.toList, isBlank c = true := by
  obtain ⟨before, after, rfl⟩ := List.append_of_mem ht
  obtain ⟨mid, -, hcuts⟩ := (tokenize_eq_ok_iff.mp h).1.exists_of_append
  exact fun c hc ↦ isBlank_of_isAsciiBlank (isAsciiBlank_of_mem_space hcuts hspace c hc)

end Lexer

namespace Layout

/-- No space is empty, and all are blank. -/
def HasBlankSpaces (l : Layout) : Prop :=
  ∀ s, Piece.space s ∈ l.pieces → s ≠ "" ∧ ∀ c ∈ s.toList, Text.isBlank c = true

variable {l : Layout}

theorem HasBlankSpaces.pushToken (h : l.HasBlankSpaces) {t : Token}
    (ht : t.kind = .space → ∀ c ∈ t.text.toList, Text.isBlank c = true) :
    (l.pushToken t).HasBlankSpaces := by
  unfold Layout.pushToken
  split
  · next hspace =>
    exact HasSpaces.pushParts h fun part hpart c hc ↦
      ht hspace c (subset_of_mem_splitWhere hpart hc)
  · exact HasSpaces.push_of_ne h (by simp)
  · exact HasSpaces.push_of_ne h (by simp)
  · exact HasSpaces.push_of_ne h (by simp)

/-- The layout is put together from tokens. -/
def IsLexed (l : Layout) : Prop :=
  ∃ us : List Token, (∀ t ∈ us, ∃ mode record ts, tokenize mode record = .ok ts ∧ t ∈ ts) ∧
    l = us.foldl pushToken .empty

theorem isLexed_of_subset {mode : LexMode} {record : String} {ts us : List Token}
    (hts : tokenize mode record = .ok ts) (hus : us ⊆ ts) : IsLexed (us.foldl pushToken .empty) :=
  ⟨us, fun _ ht ↦ ⟨mode, record, ts, hts, hus ht⟩, rfl⟩

/-- The blanks of a layout from tokens are those of its tokens. -/
theorem IsLexed.hasBlankSpaces (h : l.IsLexed) : l.HasBlankSpaces := by
  obtain ⟨us, hus, rfl⟩ := h
  have hfold : ∀ l : Layout, l.HasBlankSpaces → (us.foldl pushToken l).HasBlankSpaces := by
    induction us with
    | nil => exact fun l hl ↦ hl
    | cons t us ih =>
      obtain ⟨⟨mode, record, ts, hts, ht⟩, hus⟩ := List.forall_mem_cons.mp hus
      exact fun l hl ↦ ih hus _ (hl.pushToken (Lexer.isBlank_of_mem_space hts ht))
  exact hfold _ hasSpaces_empty

end Layout

/-! ## Integers in a style -/

namespace Number

theorem IsIntegerText.readInt?_eq {cs : List Char} (h : IsIntegerText cs)
    (hrange : minInt ≤ integerOf cs ∧ integerOf cs ≤ maxInt) :
    readInt? (String.ofList cs) = some (integerOf cs) := by
  have hdigits : (Decimal.readSign cs).2.all Char.isDigit = true := List.all_eq_true.mpr h.allDigits
  rw [integerOf] at hrange ⊢
  rw [readInt?, String.toList_ofList]
  simp only [List.isEmpty_eq_false_iff.mpr h.nonempty, hdigits, hrange, Bool.not_true, Bool.or_self,
    Bool.false_eq_true, if_false, decide_true, Bool.and_self, if_true]

/-- An integer is read as itself in any style, but for a blank in the place of its sign. -/
theorem exists_renderInt {n : Int} (hn : minInt ≤ n ∧ n ≤ maxInt) (width : Nat) (sign : SignStyle) :
    ∃ k number, renderInt n width sign = spaces k ++ number ∧ readInt? number = some n := by
  obtain ⟨lead, cs, htext, hlead, hcs, rfl, -⟩ := renderInt_spells n width sign
  obtain ⟨k, rfl⟩ : ∃ k, lead = List.replicate k ' ' := by
    rcases hlead with rfl | rfl
    · exact ⟨0, rfl⟩
    · exact ⟨1, rfl⟩
  refine ⟨k, String.ofList cs, ?_, hcs.readInt?_eq hn⟩
  rw [← String.toList_inj, htext, spaces, ← String.ofList_append, String.toList_ofList]

end Number

/-! ## What stands behind a changed value -/

namespace Text

/-- A blank stands in front. -/
def StartsBlank (s : String) : Prop := ∃ c ∈ s.toList.head?, isBlank c = true

theorem spaces_append_spaces (m n : Nat) : spaces m ++ spaces n = spaces (m + n) := by
  rw [spaces, spaces, spaces, ← String.ofList_append, List.replicate_append_replicate]

theorem padRight_eq (width : Nat) (s : String) :
    padRight width s = s ++ spaces (width - s.length) := by
  rw [padRight, spaces, String.ofList_append, String.ofList_toList]

theorem startsBlank_spaces {n : Nat} (hn : 0 < n) (s : String) : StartsBlank (spaces n ++ s) := by
  obtain ⟨n, rfl⟩ := Nat.exists_eq_succ_of_ne_zero hn.ne'
  exact ⟨' ', by simp [spaces, List.replicate_succ], rfl⟩

theorem StartsBlank.spaces_append {s : String} (h : StartsBlank s) (n : Nat) :
    StartsBlank (spaces n ++ s) := by
  cases n with
  | zero => simpa [spaces] using h
  | succ n => exact startsBlank_spaces (Nat.succ_pos n) s

end Text

/-- A text is the layout without a space at its start, which blanks stand in for. -/
structure Layout.IsRest (l rest : Layout) (n : Nat) : Prop where
  split : ∃ lead, l.pieces = lead ++ rest.pieces ∧ (lead = [] ∨ ∃ s, lead = [.space s])
  apart : StartsBlank l.text → StartsBlank (spaces n ++ rest.text)

theorem Layout.IsRest.refl (l : Layout) (n : Nat) : l.IsRest l n :=
  ⟨⟨[], rfl, .inl rfl⟩, fun h ↦ h.spaces_append n⟩

theorem Layout.IsRest.comments {l rest : Layout} {n : Nat} (h : l.IsRest rest n) :
    rest.comments = l.comments := by
  obtain ⟨lead, hsplit, rfl | ⟨s, rfl⟩⟩ := h.split
  · rw [Layout.comments, Layout.comments, hsplit, List.nil_append]
  · rw [Layout.comments, Layout.comments, hsplit]
    rfl

/-- A blank piece of the layout starts with a blank. -/
theorem Layout.HasBlankSpaces.startsBlank {l : Layout} (h : l.HasBlankSpaces) {p : Piece}
    {ps : List Piece} (hp : p ∈ l.pieces) (hblank : p.isBlank = true) :
    StartsBlank (Layout.text ⟨p :: ps⟩) := by
  have htext : Layout.text ⟨p :: ps⟩ = p.text ++ Layout.text ⟨ps⟩ := String.join_cons
  rw [htext, StartsBlank, String.toList_append]
  cases p with
  | space s =>
    obtain ⟨hne, hall⟩ := h s hp
    obtain ⟨c, cs, hs⟩ := List.exists_cons_of_ne_nil (l := s.toList) (by simpa using hne)
    exact ⟨c, by rw [Piece.text, hs]; rfl, hall c (by rw [hs]; exact List.mem_cons_self)⟩
  | newline => exact ⟨'\n', rfl, rfl⟩
  | comment => cases hblank
  | literal => cases hblank

theorem Layout.isRest_drop {l : Layout} (h : l.startsWithSpace = true) {n : Nat}
    (hapart : StartsBlank (spaces n ++ Layout.text ⟨l.pieces.drop 1⟩)) :
    l.IsRest ⟨l.pieces.drop 1⟩ n := by
  obtain ⟨pieces⟩ := l
  match pieces, h with
  | .space s :: ps, _ => exact ⟨⟨[.space s], rfl, .inr ⟨s, rfl⟩⟩, fun _ ↦ hapart⟩

namespace Field

open Layout

/-- What stands behind a changed value is its layout. -/
theorem exists_afterValue (f : Field) (hspaces : f.layoutOrEmpty.HasBlankSpaces)
    (style : NumberStyle) (rendered : String) :
    ∃ k rest, f.afterValue style rendered = (spaces k, Layout.text rest) ∧
      f.layoutOrEmpty.IsRest rest (style.width - rendered.length + k) := by
  unfold afterValue layoutOrEmpty at *
  cases hlayout : f.layout with
  | none => exact ⟨0, .empty, rfl, .refl _ _⟩
  | some l =>
    rw [hlayout] at hspaces
    dsimp only
    split_ifs with hstart hwide
    · exact ⟨1, _, rfl, isRest_drop hstart (startsBlank_spaces (Nat.succ_pos _) _)⟩
    · refine ⟨0, _, rfl, isRest_drop hstart ?_⟩
      rw [Bool.and_eq_true, decide_eq_true_eq, Bool.not_eq_true', not_and,
        Bool.not_eq_false] at hwide
      by_cases hlength : style.width ≤ rendered.utf8ByteSize
      · -- The number takes up all its room, so the next piece is a blank.
        have hapart := hwide hlength
        unfold keptApart at hapart
        split at hapart
        · next q p qs hqs =>
          rw [hqs]
          exact (hspaces.startsBlank (by rw [Option.getD_some, hqs]; simp) hapart).spaces_append _
        · cases hapart
      · have := length_le_utf8ByteSize rendered
        exact startsBlank_spaces (by omega) _
    · exact ⟨0, l, rfl, .refl _ _⟩

/-- The text is a number that is read as `n`, among blanks, and the rest of the layout `l`. -/
def WritesInt (l : Layout) (n : Int) (text : String) : Prop :=
  ∃ before number after rest, text = spaces before ++ number ++ spaces after ++ Layout.text rest ∧
    Number.readInt? number = some n ∧ l.IsRest rest after ∧ rest.comments = l.comments

/-- Without blanks and layout a text is its number. -/
theorem WritesInt.readInt?_eq {n : Int} {text : String} (h : WritesInt .empty n text)
    (hblanks : ' ' ∉ text.toList) : Number.readInt? text = some n := by
  obtain ⟨before, number, after, rest, rfl, hread, hrest, -⟩ := h
  obtain ⟨lead, hsplit, -⟩ := hrest.split
  have hpieces : rest.pieces = [] := (List.append_eq_nil_iff.mp hsplit.symm).2
  have hnone {k : Nat} (hk : ' ' ∉ (spaces k).toList) : spaces k = "" := by
    have hzero : k = 0 := by simpa [spaces, List.mem_replicate] using hk
    rw [hzero]
    rfl
  simp only [String.toList_append, List.mem_append, not_or] at hblanks
  obtain ⟨⟨⟨hbefore, -⟩, hafter⟩, -⟩ := hblanks
  rw [hnone hbefore, hnone hafter, Layout.text, hpieces]
  simpa using hread

/-- A changed integer is written as itself. -/
theorem writesInt_renderChanged (f : Field) (hspaces : f.layoutOrEmpty.HasBlankSpaces)
    (t : Tolerance) {n : Int} (hn : Number.minInt ≤ n ∧ n ≤ Number.maxInt) :
    WritesInt f.layoutOrEmpty n (f.renderChanged t (.int n)).text := by
  obtain ⟨before, number, hrendered, hread⟩ :=
    Number.exists_renderInt hn f.style.zeroWidth f.style.sign
  have hrendered : f.style.render t (.int n) = spaces before ++ number := hrendered
  obtain ⟨k, rest, hafter, hrest⟩ := f.exists_afterValue hspaces f.style (f.style.render t (.int n))
  have htext : (f.renderChanged t (.int n)).text = spaces before ++ number ++
      spaces (f.style.width - (f.style.render t (.int n)).length + k) ++ rest.text := by
    simp only [renderChanged, hafter, padRight_eq]
    rw [← spaces_append_spaces, ← hrendered]
    simp only [String.append_assoc]
  rw [htext]
  exact ⟨before, number, _, rest, rfl, hread, hrest, hrest.comments⟩

/-! ## Setting an integer -/

/-- Sets an integer, and the flag for its sign if there is one. -/
def setInt (f : Field) (n : Int) : Field :=
  let f := f.setValue (some (.int n))
  if f.signFlag.apart then f.setNegative (n < 0) else f

section

variable {f : Field} {n : Int}

theorem signed_setInt (hkind : f.kind = .int) : (f.setInt n).signed = some (.int n) := by
  cases hflag : f.signFlag.apart with
  | false => simp [setInt, setValue, signed, kept, hkind, hflag, Value.coerce]
  | true =>
    by_cases hn : n < 0
    · simp [setInt, setValue, setNegative, signed, kept, hkind, hflag, hn, Value.coerce,
        Value.magnitude, Value.negate, abs_of_neg hn]
    · simp [setInt, setValue, setNegative, signed, kept, hkind, hflag, hn, Value.coerce,
        Value.magnitude, abs_of_nonneg (not_lt.mp hn)]

theorem layout_setInt (hvalue : f.value ≠ none) : (f.setInt n).layout = f.layout := by
  have hopen : f.value.isNone = false :=
    Option.isNone_eq_false_iff.mpr (Option.isSome_iff_ne_none.mpr hvalue)
  unfold setInt
  dsimp only
  split_ifs <;> simp [setValue, setNegative, hopen]

@[simp] theorem asRead_setInt : (f.setInt n).asRead = f.asRead := by
  unfold setInt
  dsimp only
  split_ifs <;> rfl

@[simp] theorem token_setInt : (f.setInt n).token = f.token := by
  unfold setInt
  dsimp only
  split_ifs <;> rfl

end

/-- What is written once an integer is set in the place of another, whose sign may be kept apart. -/
def textSetTo (f : Field) (identifier : Bool) (t : Tolerance) (n : Int) : String :=
  (((if identifier then f.asSignedIdentifier else f).setInt n).render t).text

/-- An integer as it is read from its token. -/
def ofInt (token : String) (k : Int) (layout : Option Layout) : Field :=
  ⟨some token, some (.int k), some (.int k), .int, layout, ⟨false, false⟩, false, false⟩

theorem parse?_int {token : String} {k : Int} (hread : Number.readInt? token = some k)
    (layout : Option Layout) : parse? token .int layout = some (ofInt token k layout) := by
  rw [parse?, readValue?, hread]
  rfl

/-- What is set is written, or the token stays. -/
theorem writesInt_setInt {f : Field} {token : String} {k n : Int} (hkind : f.kind = .int)
    (hvalue : f.value ≠ none) (htoken : f.token = some token) (hasRead : f.asRead = some (.int k))
    (hread : Number.readInt? token = some k) (hspaces : f.layoutOrEmpty.HasBlankSpaces)
    (hn : Number.minInt ≤ n ∧ n ≤ Number.maxInt) (t : Tolerance) :
    if t.close (Float.ofInt n) (Float.ofInt k) then
      ((f.setInt n).render t).text = token ++ f.layoutOrEmpty.text ∧
        WritesInt f.layoutOrEmpty k ((f.setInt n).render t).text
    else WritesInt f.layoutOrEmpty n ((f.setInt n).render t).text := by
  have hlayout : (f.setInt n).layoutOrEmpty = f.layoutOrEmpty := by
    rw [layoutOrEmpty, layout_setInt hvalue, layoutOrEmpty]
  have hchanged : (f.setInt n).hasChanged t = !t.close (Float.ofInt n) (Float.ofInt k) := by
    rw [hasChanged, signed_setInt hkind, asRead_setInt, hasRead]
    rfl
  unfold Field.render
  rw [hchanged, Bool.not_not]
  split_ifs
  · have htext :
        (f.setInt n).token.getD "" ++ layoutText (f.setInt n).layout =
        token ++ f.layoutOrEmpty.text := by
      rw [token_setInt, htoken, ← hlayout, layoutOrEmpty, Layout.text_getD]
      rfl
    rw [Rendered.text_ofText, htext]
    exact ⟨rfl, 0, token, 0, f.layoutOrEmpty, by simp [spaces], hread, .refl _ _, rfl⟩
  · rw [signed_setInt hkind]
    rw [← hlayout] at hspaces ⊢
    exact writesInt_renderChanged _ hspaces t hn

/-- An integer that is set is written as itself, unless the tolerance takes it for the one that was
read. -/
theorem isWritten_setInt {token : String} {k n : Int} {layout : Option Layout}
    (hread : Number.readInt? token = some k) (hlayout : ∀ l ∈ layout, l.IsLexed)
    (hn : Number.minInt < n ∧ n ≤ Number.maxInt) (identifier : Bool) (t : Tolerance) :
    ∃ f, parse? token .int layout = some f ∧ f.layout = layout ∧
      (t.close (Float.ofInt n) (Float.ofInt k) = false →
      WritesInt f.layoutOrEmpty n (f.textSetTo identifier t n)) ∧
      (t.close (Float.ofInt n) (Float.ofInt k) = true →
        f.textSetTo identifier t n = token ++ f.layoutOrEmpty.text ∧
          WritesInt f.layoutOrEmpty k (f.textSetTo identifier t n)) ∧
      (t = .standard → n.natAbs < 10 ^ 8 → k.natAbs < 10 ^ 8 →
        WritesInt f.layoutOrEmpty n (f.textSetTo identifier t n)) := by
  have hspaces : (layout.getD .empty).HasBlankSpaces := by
    cases layout with
    | none => exact Layout.hasSpaces_empty
    | some l => exact (hlayout l rfl).hasBlankSpaces
  refine ⟨_, parse?_int hread layout, rfl, ?_⟩
  set f := ofInt token k layout
  have hset : if t.close (Float.ofInt n) (Float.ofInt k) then
      f.textSetTo identifier t n = token ++ f.layoutOrEmpty.text ∧
        WritesInt f.layoutOrEmpty k (f.textSetTo identifier t n)
      else WritesInt f.layoutOrEmpty n (f.textSetTo identifier t n) := by
    cases identifier with
    | false => exact f.writesInt_setInt rfl nofun rfl rfl hread hspaces ⟨hn.1.le, hn.2⟩ t
    | true =>
      exact f.asSignedIdentifier.writesInt_setInt rfl nofun rfl rfl hread hspaces ⟨hn.1.le, hn.2⟩ t
  refine ⟨fun hclose ↦ ?_, fun hclose ↦ ?_, fun ht hshort hshort' ↦ ?_⟩
  · rwa [if_neg (by simp [hclose])] at hset
  · rwa [if_pos hclose] at hset
  · split_ifs at hset with hclose
    · have hfit {z : Int} (hz : z.natAbs < 10 ^ 8) : z.natAbs < 2 ^ 53 := hz.trans (by decide)
      subst ht
      have hheld := holdsInt_ofInt (hfit hshort)
      obtain rfl := hheld.eq_of_close_of_lt (holdsInt_ofInt (hfit hshort')) hshort hshort' hclose
      exact hset.2
    · exact hset

theorem isWritten_setInt_of_lexed : ∃ ts, tokenize .data "-007  $ side" = .ok ts ∧
    ∃ f, parse? "-007" .int (some (ts.tail.foldl Layout.pushToken .empty)) = some f ∧
      WritesInt f.layoutOrEmpty 12 (f.textSetTo true .standard 12) := by
  have hok : (tokenize .data "-007  $ side").toBool = true := by decide +kernel
  cases htokens : tokenize .data "-007  $ side" with
  | error e => simp [htokens, Except.toBool] at hok
  | ok ts =>
    have hlexed := isLexed_of_subset htokens (List.tail_subset ts)
    have hread : Number.readInt? "-007" = some (-7) := by decide +kernel
    obtain ⟨f, hparse, -, -, -, hshort⟩ := isWritten_setInt (n := 12) hread
      (fun l hl ↦ Option.mem_some.mp hl ▸ hlexed) (by decide) true .standard
    exact ⟨ts, rfl, f, hparse, hshort rfl (by decide) (by decide)⟩

/-- Ten digits are too many for the standard tolerance to tell two integers apart. -/
theorem not_writesInt_of_long : ∃ f, parse? "2000000000" .int none = some f ∧
    f.textSetTo false .standard 2000000001 = "2000000000" ∧
      ¬WritesInt f.layoutOrEmpty 2000000001 (f.textSetTo false .standard 2000000001) := by
  have hread : Number.readInt? "2000000000" = some 2000000000 := by decide +kernel
  have htext : (ofInt "2000000000" 2000000000 none).textSetTo false .standard 2000000001 =
      "2000000000" := by
    decide +kernel
  refine ⟨_, parse?_int hread none, htext, fun h ↦ ?_⟩
  rw [htext] at h
  cases hread.symm.trans (h.readInt?_eq (by decide))

end Field

/-! ## Setting a whole float -/

namespace Text

/-- Trimming leaves what stands between blanks. -/
theorem trim_append {as cs bs : List Char} (has : allBlank as = true)
    (hcs : ∀ c ∈ cs, isBlank c = false) (hbs : allBlank bs = true) :
    trim (as ++ cs ++ bs) = cs := by
  cases cs with
  | nil =>
    have hall : allBlank (as ++ [] ++ bs) = true := by
      rw [List.append_nil, allBlank_append, has, hbs]
      rfl
    have hstart : trimStart (as ++ [] ++ bs) = [] :=
      List.dropWhile_eq_nil_iff.mpr (List.all_eq_true.mp hall)
    rw [trim, hstart]
    rfl
  | cons c cs =>
    have hc : ¬isBlank c = true := by simp [hcs c List.mem_cons_self]
    have hstart : trimStart (as ++ (c :: cs) ++ bs) = c :: cs ++ bs := by
      rw [trimStart, List.append_assoc, List.dropWhile_append_of_pos (List.all_eq_true.mp has),
        List.cons_append, List.dropWhile_cons_of_neg hc]
    rw [trim, hstart, trimEnd_append_of_allBlank hbs]
    exact List.rdropWhile_eq_self_iff.mpr fun hne ↦ by simp [hcs _ (List.getLast_mem hne)]

theorem allBlank_spaces (n : Nat) : allBlank (spaces n).toList = true := by
  rw [spaces, String.toList_ofList]
  exact List.all_eq_true.mpr fun c hc ↦ by rw [List.eq_of_mem_replicate hc]; rfl

end Text

namespace Number

/-- The integers whose floats are all that 64 bits are read as. -/
def held (z : Int) : Int := max (-2 ^ 63) (min (2 ^ 63) z)

variable {cs : List Char} {z : Int}

/-- An integer that went through 64 bits is read as a float within their ends. -/
theorem IsIntegerText.exists_held (hcs : IsIntegerText cs) (hexact : IsExact z.natAbs)
    (hvalue : integerOf cs = max minInt (min maxInt z)) :
    ∃ y, readReal? (String.ofList cs) = some y ∧ HoldsInt y (held z) := by
  have hmin : minInt = -2 ^ 63 := rfl
  have hmax : maxInt = 2 ^ 63 - 1 := rfl
  by_cases hlarge : maxInt < z
  · obtain ⟨y, hread, hholds⟩ := hcs.readReal?_maxInt (by omega)
    have hheld : held z = 2 ^ 63 := by
      unfold held
      omega
    exact ⟨y, hread, hheld ▸ hholds⟩
  · obtain ⟨y, hread, -, hholds⟩ := hcs.readReal?_eq
    have hheld : held z = integerOf cs := by
      unfold held
      omega
    refine ⟨y, hread, hheld ▸ hholds ?_⟩
    by_cases hsmall : z < minInt
    · rw [hvalue]
      have hend : (max minInt (min maxInt z)).natAbs = 2 ^ 52 * 2 ^ 11 := by omega
      exact .inr ⟨2 ^ 52, 11, by decide, by decide, hend⟩
    · rwa [hvalue, show max minInt (min maxInt z) = z by omega]

/-- What is not far beyond the ends is not within the standard tolerance of them. -/
theorem close_held_eq_false {x y : Float} (hy : HoldsInt y (held z)) (hx : HoldsInt x z)
    (hz : 2 ^ 63 + 2 ^ 36 ≤ z.natAbs) : Tolerance.standard.close y x = false := by
  have hheld : (held z).natAbs = 2 ^ 63 ∧ (held z - z).natAbs = z.natAbs - 2 ^ 63 := by
    unfold held
    omega
  refine hy.close_eq_false hx (by omega) fun k hk ↦ ?_
  rw [hheld.1] at hk
  rw [hheld.2]
  generalize z.natAbs = n at hz hk
  by_cases hn : n < 2 ^ 64
  · have hlow : 36 ≤ (n - 2 ^ 63).log2 := (Nat.le_log2 (by omega)).mpr (by omega)
    have hhigh : k.log2 < 64 := (Nat.log2_lt (by omega)).mpr (by omega)
    omega
  · have hhalf : n / 2 ≤ n - 2 ^ 63 := by omega
    have hlog := Nat.log_mono_right (b := 2) hhalf
    rw [Nat.log_div_base, ← Nat.log2_eq_log_two, ← Nat.log2_eq_log_two] at hlog
    have hk : k.log2 ≤ n.log2 := by
      rw [Nat.log2_eq_log_two, Nat.log2_eq_log_two]
      exact Nat.log_mono_right (by omega)
    omega

theorem IsIntegerText.isBlank_eq_false (h : IsIntegerText cs) : ∀ c ∈ cs, isBlank c = false := by
  obtain ⟨sgn, hcs, hsgn⟩ := readSign_cases cs
  have hdigits : ∀ c ∈ (Decimal.readSign cs).2, isBlank c = false := fun c hc ↦
    Lexer.eq_false_of_integerStarts (Lexer.mem_integerStarts (h.allDigits c hc)) isBlank (by decide)
  rw [hcs, List.forall_mem_append]
  refine ⟨?_, hdigits⟩
  obtain ⟨rfl, -⟩ | ⟨rfl | rfl, -⟩ := hsgn
  · exact List.forall_mem_singleton.mpr rfl
  · exact List.forall_mem_singleton.mpr rfl
  · exact List.forall_mem_nil _

end Number

namespace Field

/-- The text is a number that is read as `x`, among blanks and in front of the layout `l` without a
space at its start; without the blanks around it, it is the number if the layout is blank. -/
def WritesReal (l : Layout) (x : Float) (text : String) : Prop :=
  ∃ before number after rest, text = spaces before ++ number ++ spaces after ++ Layout.text rest ∧
    Number.readReal? number = some x ∧
    (∃ lead, l.pieces = lead ++ rest.pieces ∧ (lead = [] ∨ ∃ s, lead = [.space s])) ∧
    (allBlank l.text.toList = true → trimString text = number)

/-- What stands behind a changed value is blanks and the layout without the space that they stand in
for. -/
theorem afterValue_cases (f : Field) (style : NumberStyle) (rendered : String) :
    ∃ k rest, f.afterValue style rendered = (spaces k, Layout.text rest) ∧
      ∃ lead, f.layoutOrEmpty.pieces = lead ++ rest.pieces ∧
      (lead = [] ∨ ∃ s, lead = [.space s]) := by
  unfold afterValue layoutOrEmpty
  cases f.layout with
  | none => exact ⟨0, .empty, rfl, [], rfl, .inl rfl⟩
  | some l =>
    dsimp only [Option.getD_some]
    split_ifs with hstart hwide
    all_goals obtain ⟨pieces⟩ := l
    · match pieces, hstart with
      | .space s :: ps, _ => exact ⟨1, ⟨ps⟩, rfl, [.space s], rfl, .inr ⟨s, rfl⟩⟩
    · match pieces, hstart with
      | .space s :: ps, _ => exact ⟨0, ⟨ps⟩, rfl, [.space s], rfl, .inr ⟨s, rfl⟩⟩
    · exact ⟨0, ⟨pieces⟩, rfl, [], rfl, .inl rfl⟩

theorem whole_style {f : Field} {token : String} (hkind : f.kind = .real)
    (htoken : f.token = some token) (hinteger : Number.IsIntegerText token.toList) :
    f.style.whole = true := by
  unfold style
  rw [htoken, hkind]
  exact NumberStyle.whole_ofRealToken_integer hinteger _

variable {f : Field} {x : Float} {z : Int}

/-- A whole float is written as its integer, held within the 64-bit range. -/
theorem writesReal_renderChanged (hstyle : f.style.whole = true) (t : Tolerance)
    (hx : HoldsInt x z) :
    ∃ y, WritesReal f.layoutOrEmpty y (f.renderChanged t (.real x)).text ∧
      HoldsInt y (Number.held z) := by
  obtain ⟨lead, cs, hspells, hlead, hinteger, hvalue, -⟩ :=
    Number.renderInt_spells (max Number.minInt (min Number.maxInt z)) f.style.zeroWidth f.style.sign
  rw [← hx.renderReal_whole hstyle t] at hspells
  obtain ⟨before, rfl⟩ : ∃ k, lead = (spaces k).toList := by
    rcases hlead with rfl | rfl
    · exact ⟨0, rfl⟩
    · exact ⟨1, rfl⟩
  have hrendered : f.style.render t (.real x) = spaces before ++ String.ofList cs := by
    rw [← String.toList_inj, String.toList_append, String.toList_ofList]
    exact hspells
  obtain ⟨y, hread, hholds⟩ := hinteger.exists_held hx.isExact hvalue
  obtain ⟨k, rest, hafter, lead, hpieces, hlead⟩ :=
    f.afterValue_cases f.style (f.style.render t (.real x))
  set after := f.style.width - (f.style.render t (.real x)).length + k with hwidth
  have htext : (f.renderChanged t (.real x)).text =
      spaces before ++ String.ofList cs ++ spaces after ++ rest.text := by
    simp only [renderChanged, hafter, padRight_eq, hwidth]
    rw [← spaces_append_spaces, ← hrendered]
    simp only [String.append_assoc]
  refine ⟨y, ⟨before, String.ofList cs, after, rest, htext, hread,
    ⟨lead, hpieces, hlead⟩, fun hblank ↦ ?_⟩, hholds⟩
  have hrest : allBlank rest.text.toList = true := by
    have hsplit : f.layoutOrEmpty.text = Layout.text ⟨lead⟩ ++ rest.text := by
      rw [Layout.text, hpieces, List.map_append, String.join_append]
      rfl
    rw [hsplit, String.toList_append, allBlank_append, Bool.and_eq_true] at hblank
    exact hblank.2
  rw [htext, trimString]
  simp only [String.toList_append, String.toList_ofList]
  rw [List.append_assoc _ (spaces after).toList,
    trim_append (allBlank_spaces before) hinteger.isBlank_eq_false
      (by rw [allBlank_append, allBlank_spaces, hrest]; rfl)]

/-- A real number as it is read from its token. -/
def ofReal (token : String) (x : Float) (layout : Option Layout) : Field :=
  ⟨some token, some (.real x), some (.real x), .real, layout, ⟨false, false⟩, false, false⟩

theorem parse?_real {token : String} (hread : Number.readReal? token = some x)
    (layout : Option Layout) : parse? token .real layout = some (ofReal token x layout) := by
  rw [parse?, readValue?, hread]
  rfl

/-- A whole number that is set in the place of an integer is read back as itself up to the ends of
the 64-bit range, and beyond them as the end, which is then not within the standard tolerance. -/
theorem writesReal_setValue {token : String} (htoken : Number.IsIntegerText token.toList)
    (layout : Option Layout) (t : Tolerance) (hx : Number.isWhole x = true) :
    ∃ f, parse? token .real layout = some f ∧ f.layout = layout ∧
      ((f.setValue (some (.real x))).hasChanged t = true → ∃ z y, HoldsInt x z ∧
        WritesReal f.layoutOrEmpty y ((f.setValue (some (.real x))).render t).text ∧
        HoldsInt y (Number.held z) ∧ (z.natAbs ≤ 2 ^ 63 → Tolerance.standard.close y x = true) ∧
        (2 ^ 63 + 2 ^ 36 ≤ z.natAbs → Tolerance.standard.close y x = false)) := by
  obtain ⟨k, hread, -⟩ := htoken.readReal?_eq
  rw [String.ofList_toList] at hread
  refine ⟨_, parse?_real hread layout, rfl, fun hchanged ↦ ?_⟩
  obtain ⟨z, hz⟩ := exists_holdsInt hx
  have hstyle : ((ofReal token k layout).setValue (some (.real x))).style.whole = true :=
    whole_style rfl rfl htoken
  obtain ⟨y, hwrites, hy⟩ := writesReal_renderChanged hstyle t hz
  refine ⟨z, y, hz, ?_, hy, fun hin ↦ ?_, Number.close_held_eq_false hy hz⟩
  · rw [render, hchanged]
    exact hwrites
  · have hheld : Number.held z = z := by
      unfold Number.held
      omega
    rw [hheld] at hy
    rw [Tolerance.close, if_pos (hy.beq hz)]

theorem writesReal_setValue_of_small : ∃ f y, parse? "-007" .real none = some f ∧
    WritesReal f.layoutOrEmpty y
      ((f.setValue (some (.real (.ofInt (-12))))).render .standard).text ∧
    Tolerance.standard.close y (.ofInt (-12)) = true := by
  have hread : Number.readReal? "-007" = some (-7.0) := by rfl
  have htoken : Number.IsIntegerText "-007".toList :=
    ⟨by decide +kernel, List.all_eq_true.mp (by decide +kernel)⟩
  obtain ⟨f, hparse, -, hset⟩ :=
    writesReal_setValue htoken none .standard (x := .ofInt (-12)) (by decide +kernel)
  obtain rfl := Option.some.inj ((parse?_real hread none).symm.trans hparse)
  obtain ⟨z, y, hz, hwrites, -, hclose, -⟩ := hset (by decide +kernel)
  have hholds : HoldsInt (.ofInt (-12)) (-12) := holdsInt_ofInt (by decide)
  obtain rfl := hz.eq_of_beq hholds (hz.beq hz)
  exact ⟨_, y, hparse, hwrites, hclose (by decide)⟩

/-- The end of the 64-bit range is written for a larger number. -/
theorem not_writesReal_of_large :
    ∃ f y, parse? "7" .real none = some f ∧ Number.isWhole 1e19 = true ∧
      (f.setValue (some (.real 1e19))).hasChanged .standard = true ∧
    ((f.setValue (some (.real 1e19))).render .standard).text = "9223372036854775807" ∧
    Number.readReal? "9223372036854775807" = some y ∧ Tolerance.standard.close y 1e19 = false := by
  have hread : Number.readReal? "7" = some 7.0 := by rfl
  have hback : (Number.readReal? "9223372036854775807").any (!Tolerance.standard.close · 1e19) =
      true := by
    decide +kernel
  obtain ⟨y, hy, hclose⟩ := (Option.any_eq_true _ _).mp hback
  refine ⟨_, y, parse?_real hread none, ?_, ?_, ?_, hy, by simpa using hclose⟩ <;> decide +kernel

end Field

end TransportDeck
