import TransportDeck.Proofs.Grammar.MaterialReading
import TransportDeck.Proofs.Grammar.OwnLists
import TransportDeck.Proofs.Number.IntegerText
import TransportDeck.Proofs.Reconcile.SetNumbers
import TransportDeck.Proofs.Token.LongerTexts

/-!
# Lists of whole numbers

A list whose items are integers, jumps and repeats is read from tokens that spell these items, one
behind the other. A repeat has its first value in front of it, or none of its own.

A list that is read from the tokens of a text has gaps between its items.  Something stands behind
every integer but the last, for otherwise the next item would be a part of the same token.
-/

namespace TransportDeck

/-! ## Whole numbers -/

/-- The field is a number; its token, if it has one, is an integer. -/
def Field.IsWhole (f : Field) : Prop :=
  f.kind = .real ∧ ∀ token ∈ f.token, Number.IsIntegerText token.toList

instance (f : Field) : Decidable f.IsWhole :=
  inferInstanceAs
    (Decidable (f.kind = .real ∧ ∀ token ∈ f.token, Number.IsIntegerText token.toList))

/-- An integer, or a jump or a repeat of integers. -/
def Item.IsWhole : Item → Prop
  | field f => f.IsWhole
  | run s => (s.kind = .jump ∨ s.kind = .copies) ∧ ∀ f ∈ s.members, f.IsWhole

instance : (i : Item) → Decidable i.IsWhole
  | .field f => inferInstanceAs (Decidable f.IsWhole)
  | .run s =>
      inferInstanceAs (Decidable ((s.kind = .jump ∨ s.kind = .copies) ∧ ∀ f ∈ s.members, f.IsWhole))

namespace Production

variable {c : Cursor} {t : Token} {ts us ls : List Token} {i : Item} {is : List Item}
  {l l' : FieldList} {lead : Lead} {kind : ShorthandKind} {span : Span} {s : Shorthand}

/-! ## Tokens of items -/

/-- The tokens of an item, with the layout behind it. -/
inductive SpellsItem : List Token → Item → Prop where
  | field {t : Token} {ls : List Token} {f : Field} (number : t.kind.isNumber = true)
      (read : Field.parse? t.text .real none = some f) (layout : ∀ l ∈ ls, l.isLayout = true) :
      SpellsItem (t :: ls) (.field (f.setLayout (Layout.ofTokens? ls)))
  | jump {id : Nat} {t : Token} {ls : List Token} {s : Shorthand} (kind : t.kind = .shorthand .jump)
      (made : Shorthand.jump id t.text (Layout.ofTokens? ls) = .ok s)
        (layout : ∀ l ∈ ls, l.isLayout = true) :
      SpellsItem (t :: ls) (.run s)
  | chained {id : Nat} {v : Option Value} {t : Token} {ls : List Token} {s : Shorthand}
      (kind : t.kind = .shorthand .copies)
      (made : Shorthand.copies id (.chained v) t.text (Layout.ofTokens? ls) = .ok s)
      (layout : ∀ l ∈ ls, l.isLayout = true) : SpellsItem (t :: ls) (.run s)
  | owned {id : Nat} {ts ls : List Token} {f : Field} {t : Token} {s : Shorthand}
      (lead : SpellsItem ts (.field f)) (kind : t.kind = .shorthand .copies)
        (made : Shorthand.copies id (.owned f) t.text (Layout.ofTokens? ls) = .ok s)
      (layout : ∀ l ∈ ls, l.isLayout = true) : SpellsItem (ts ++ t :: ls) (.run s)

/-- The tokens of items, one behind the other.  Nothing is said of those that are no whole
numbers. -/
def SpellItems (ts : List Token) (is : List Item) : Prop :=
  ∃ tss, List.Forall₂ (fun us i ↦ i.IsWhole → SpellsItem us i) tss is ∧ ts = tss.flatten

namespace SpellItems

theorem nil : SpellItems [] [] := ⟨[], .nil, rfl⟩

/-- One more item is spelled by the tokens behind the others. -/
theorem concat (h : SpellItems ts is) (hi : i.IsWhole → SpellsItem us i) :
    SpellItems (ts ++ us) (is ++ [i]) := by
  obtain ⟨tss, htss, rfl⟩ := h
  exact ⟨tss ++ [us], List.rel_append htss (.cons hi .nil), by simp⟩

/-- The last item is spelled by the last of the tokens. -/
theorem exists_last (h : SpellItems ts (is ++ [i])) :
    ∃ us vs, ts = us ++ vs ∧ SpellItems us is ∧ (i.IsWhole → SpellsItem vs i) := by
  obtain ⟨tss, htss, rfl⟩ := h
  obtain ⟨vs, vss, hvs, hvss, hdrop⟩ :=
    List.forall₂_cons_right_iff.mp (List.forall₂_drop_append tss is [i] htss)
  cases hvss
  refine ⟨(tss.take is.length).flatten, vs, ?_,
    ⟨_, List.forall₂_take_append tss is [i] htss, rfl⟩, hvs⟩
  conv_lhs => rw [← List.take_append_drop is.length tss, hdrop]
  simp

end SpellItems

/-! ## Leads -/

/-- What a shorthand takes from the end of a list, and what it leaves. -/
inductive Takes (l : FieldList) : Lead → FieldList → Prop where
  | chained {v : Option Value} : Takes l (.chained v) l
  | owned {f : Field} {l' : FieldList} (items : l.items = l'.items ++ [.field f])
      (tail : l'.tail = l.tail) : Takes l (.owned f) l'

/-- What leads a run is taken from the list, and no token is read. -/
theorem Reads.leadOf_takes :
    Reads (Production.leadOf kind span l) c fun r ts ↦ ts = [] ∧ Takes l r.1 r.2 := by
  unfold Production.leadOf
  split_ifs
  · exact .pure ⟨rfl, .chained⟩
  · split
    · next f rest hpop =>
      unfold FieldList.popField? at hpop
      split at hpop
      · next g hlast =>
        obtain ⟨rfl, rfl⟩ := Prod.mk.inj (Option.some.inj hpop)
        exact .pure ⟨rfl, .owned (List.dropLast_append_getLast? _ hlast).symm rfl⟩
      · cases hpop
    · exact .throw

/-- A run that takes its lead from the list is spelled by the tokens of both. -/
theorem SpellItems.pushLead (h : SpellItems ts l.items) (htakes : Takes l lead l')
    (hchained : ∀ v, lead = .chained v → Item.IsWhole (.run s) → SpellsItem us (.run s))
    (howned : ∀ f, lead = .owned f → Item.IsWhole (.run s) →
      ∀ vs, (f.IsWhole → SpellsItem vs (.field f)) → SpellsItem (vs ++ us) (.run s)) :
    SpellItems (ts ++ us) (l'.pushRun s).items ∧ (l'.pushRun s).tail = l.tail := by
  cases htakes with
  | @chained v => exact ⟨h.concat (hchained v rfl), rfl⟩
  | @owned f l' items tail =>
    rw [items] at h
    obtain ⟨us, vs, rfl, hus, hvs⟩ := h.exists_last
    rw [List.append_assoc]
    exact ⟨hus.concat fun hwhole ↦ howned f rfl hwhole vs hvs, tail⟩

/-! ## Reading -/

/-- The first value of a repeat is one of its members. -/
theorem isWhole_of_owned {id : Nat} {f : Field} {token : String} {behind : Option Layout}
    (hmade : Shorthand.copies id (.owned f) token behind = .ok s) (h : Item.IsWhole (.run s)) :
    f.IsWhole := by
  obtain ⟨bare, n, v, -, -, -, rfl⟩ := Shorthand.exists_of_copies_ok hmade
  exact h.2 f List.mem_cons_self

/-- Only jumps and repeats are whole. -/
theorem not_isWhole_of_kind (hjump : s.kind ≠ .jump) (hcopies : s.kind ≠ .copies) :
    ¬Item.IsWhole (.run s) :=
  fun h ↦ h.1.elim hjump hcopies

/-- A run of shorthands is spelled by its token. -/
theorem Reads.shorthand_spells (hl : SpellItems ts l.items) (hkind : t.kind = .shorthand kind) :
    Reads (Production.shorthand .data kind t l) c fun l' us ↦ SpellItems (ts ++ t :: us) l'.items ∧
      l'.tail = l.tail := by
  have hid : SpellItems ts l.takeId.items := hl
  have hother {lead : Lead} {l' : FieldList} {us : List Token} {s : Shorthand}
    (htakes : Takes l.takeId lead l')
      (hwhole : ¬Item.IsWhole (.run s)) : SpellItems (ts ++ us) (l'.pushRun s).items ∧
      (l'.pushRun s).tail = l.tail :=
    hid.pushLead htakes (fun _ _ h ↦ absurd h hwhole) fun _ _ h ↦ absurd h hwhole
  unfold Production.shorthand
  split_ifs
  · exact .throw
  cases kind with
  | jump =>
    refine Reads.layout_tokens.bind ?_
    rintro _ ls c' - ⟨rfl, hls⟩
    refine Reads.orMalformed.bind ?_
    rintro s _ c'' - ⟨hs, rfl⟩
    refine .pure ⟨?_, rfl⟩
    rw [List.append_nil, List.append_nil]
    exact hid.concat fun _ ↦ .jump hkind hs hls
  | copies =>
    refine Reads.leadOf_takes.bind ?_
    rintro ⟨lead, l'⟩ _ c₁ - ⟨rfl, htakes⟩
    refine Reads.layout_tokens.bind ?_
    rintro _ ls c' - ⟨rfl, hls⟩
    refine Reads.orMalformed.bind ?_
    rintro s _ c'' - ⟨hs, rfl⟩
    refine .pure ?_
    rw [List.append_nil, List.append_nil, List.nil_append]
    refine hid.pushLead htakes ?_ ?_
    · rintro v rfl -
      exact .chained hkind hs hls
    · rintro f rfl hwhole vs hvs
      exact .owned (hvs (isWhole_of_owned hs hwhole)) hkind hs hls
  | multiply =>
    refine Reads.leadOf_takes.bind ?_
    rintro ⟨lead, l'⟩ ls₁ c₁ - ⟨rfl, htakes⟩
    refine Reads.layout.bind fun _ ls c' _ _ ↦ Reads.orMalformed.bind ?_
    rintro s _ c'' - ⟨hs, rfl⟩
    have hs := Shorthand.kind_of_multiply hs
    exact .pure (hother htakes (not_isWhole_of_kind (by rw [hs]; decide) (by rw [hs]; decide)))
  | linear | logarithmic =>
    refine Reads.leadOf_takes.bind ?_
    rintro ⟨lead, l'⟩ _ c₁ - ⟨rfl, htakes⟩
    refine Reads.layout.bind fun _ ls c₂ _ _ ↦ (Reads.value_tokens _ _).bind fun last vs c₃ _ _ ↦
      Reads.orMalformed.bind ?_
    rintro s _ c₄ - ⟨hs, rfl⟩
    obtain ⟨bare, first, finish, points, spacing, hbare, -, -, -, rfl⟩ :=
      Shorthand.exists_of_interpolate_ok hs
    have hs := (Shorthand.ofToken_ok hbare).kind_eq
    refine .pure (hother htakes (not_isWhole_of_kind ?_ ?_))
    · exact fun h ↦ absurd (hs.symm.trans h) (by decide)
    · exact fun h ↦ absurd (hs.symm.trans h) (by decide)

/-- A field is spelled by its token, if it is a whole number. -/
theorem SpellItems.pushField {f : Field} (h : SpellItems ts l.items)
    (hf : f.IsWhole → SpellsItem us (.field f)) : SpellItems (ts ++ us) (l.pushField f).items :=
  h.concat hf

/-- A word is no whole number. -/
theorem not_isWhole_of_text {text : String} {f : Field} (h : Field.parse? text .text none = some f)
    (behind : Option Layout) : ¬(f.setLayout behind).IsWhole := by
  rintro ⟨hkind, -⟩
  rw [Field.setLayout, Field.kind_of_parse? h] at hkind
  cases hkind

/-- An item is spelled by the tokens that it is read from. -/
theorem Reads.item?_spells (hl : SpellItems ts l.items) :
    Reads (Production.item? .data .real l) c fun o us ↦
    match o with
    | some l' => SpellItems (ts ++ us) l'.items ∧ l'.tail = l.tail
    | none => us = [] := by
  refine .current ?_
  split
  · exact .pure rfl
  next t hhead =>
  obtain ⟨us, hrest⟩ := List.head?_eq_some_iff.mp hhead
  have hnumber (expected : String) (hkind : t.kind.isNumber = true) :
      Reads (Production.value (numberKind .real t.text) expected) c fun f us ↦ f.IsWhole →
      SpellsItem us (.field f) := by
    refine (Reads.value_tokens _ _).mono ?_
    rintro _ _ ⟨u, ls, g, hu, rfl, -, hg, hls, rfl⟩ -
    obtain rfl : t = u := Option.some.inj (hhead.symm.trans hu)
    exact .field hkind hg hls
  split
  · next hkind =>
      exact .map ((hnumber _ (by rw [hkind]; rfl)).mono fun f us hf ↦ ⟨hl.pushField hf, rfl⟩)
  · next hkind =>
      exact .map ((hnumber _ (by rw [hkind]; rfl)).mono fun f us hf ↦ ⟨hl.pushField hf, rfl⟩)
  · next kind hkind =>
    refine (Reads.advance hrest).bind ?_
    rintro _ _ c' - rfl
    exact .map ((Reads.shorthand_spells hl hkind).mono fun l' us hl' ↦ hl')
  · refine .get ?_
    split_ifs
    · exact .pure rfl
    · refine .map ((Reads.value_tokens _ _).mono ?_)
      rintro _ us ⟨u, ls, g, -, rfl, -, hg, -, rfl⟩
      exact ⟨hl.pushField fun hwhole ↦ absurd hwhole (not_isWhole_of_text hg _), rfl⟩
    · exact .pure rfl

/-- A list is read from the tokens of its items; the layout behind the last one is that of the
list. -/
theorem Reads.values_spell : Reads (Production.values .data .real) c fun l ts ↦
    ∃ l₀ : FieldList, l = l₀.detachTail ∧ SpellItems ts l₀.items ∧ l₀.tail = none := by
  refine .map ((Reads.loop (I := fun (l : FieldList) ts ↦ SpellItems ts l.items ∧ l.tail = none) ?_
    ⟨SpellItems.nil, rfl⟩).mono fun l ts h ↦ ⟨l, rfl, h⟩)
  rintro l ts c' - ⟨hl, htail⟩
  refine (Reads.item?_spells hl).mono fun o us ho ↦ ?_
  cases o with
  | some l' => exact ⟨ho.1, ho.2.trans htail⟩
  | none => exact ho

end Production

open Text Lexer

/-! ## Layouts -/

/-- Layout has the text of its tokens. -/
theorem textOf_of_ofTokens? (ls : List Token) : layoutText (Layout.ofTokens? ls) = textOf ls := by
  cases ls with
  | nil => rfl
  | cons t ls => exact (Layout.text_foldl_pushToken _ _).trans String.empty_append

namespace Layout

/-- A token adds its blanks to the layout. -/
theorem HasSpaces.pushToken {P : Char → Prop} {l : Layout} (h : l.HasSpaces fun c ↦ P c ∧ c ≠ '\n')
    {t : Token} (ht : t.kind = .space → ∀ c ∈ t.text.toList, P c) :
    (l.pushToken t).HasSpaces fun c ↦ P c ∧ c ≠ '\n' := by
  unfold Layout.pushToken
  split
  · next hspace =>
    refine h.pushParts fun part hpart c hc ↦ ⟨ht hspace c (subset_of_mem_splitWhere hpart hc), ?_⟩
    simpa using of_mem_splitWhere hpart c hc
  · exact h.push_of_ne (by simp)
  · exact h.push_of_ne (by simp)
  · exact h.push_of_ne (by simp)

/-- The blanks in a layout are those of its tokens. -/
theorem HasSpaces.foldl_pushToken {P : Char → Prop} {l : Layout}
    (h : l.HasSpaces fun c ↦ P c ∧ c ≠ '\n') {ts : List Token}
    (hts : ∀ t ∈ ts, t.kind = .space → ∀ c ∈ t.text.toList, P c) :
    (ts.foldl Layout.pushToken l).HasSpaces fun c ↦ P c ∧ c ≠ '\n' := by
  induction ts generalizing l with
  | nil => exact h
  | cons t ts ih =>
    obtain ⟨ht, hts⟩ := List.forall_mem_cons.mp hts
    exact ih (h.pushToken ht) hts

end Layout

/-! ## Runs -/

namespace Field

variable {f : Field} {token : String}

/-- An integer as it is read, with a gap behind it. -/
theorem isTidy_of_parse? (h : parse? token .real none = some f)
    (hinteger : Number.IsIntegerText token.toList)
    (hshort : byteSize token.toList ≤ Limits.tokenBytes) {behind : Option Layout}
    (hgap : ∀ l ∈ behind, l.IsGap false) : (f.setLayout behind).IsTidy := by
  obtain ⟨v, hv, rfl⟩ := Option.map_eq_some_iff.mp h
  obtain ⟨x, hx, rfl⟩ := Option.map_eq_some_iff.mp hv
  exact {
    kind_eq := rfl
    plain := rfl
    real := by
      rintro _ ⟨⟩
      rfl
    read := .inr ⟨token, x, rfl, rfl, hinteger, hx, hshort⟩
    gap := hgap }

/-- A new jump is tidy. -/
theorem isTidy_jump : Field.jump.IsTidy where
  kind_eq := rfl
  plain := rfl
  real := nofun
  read := .inl ⟨rfl, rfl⟩
  gap := nofun

/-- A tidy field may get a gap behind it. -/
theorem IsTidy.withGap (h : f.IsTidy) : (f.withLayout .gap).IsTidy := h.setLayout Layout.isGap_gap

end Field

namespace Shorthand

variable {id : Nat} {kind : ShorthandKind} {token : String} {behind : Option Layout}
  {bare s : Shorthand} {n : Nat} {ds : List Char} {c : Char}

/-- A run whose token is digits and a letter. -/
theorem isTidy_of_ofToken (h : ofToken id kind token behind = .ok bare)
    (hkind : kind = .jump ∨ kind = .copies) (htoken : token.toList = ds ++ [c])
    (hds : ∀ d ∈ ds, d.isDigit = true) (hc : c.toLower = countedLetter kind)
    (hshort : byteSize token.toList ≤ Limits.tokenBytes) (hn : bare.countValue = .ok n)
    (hs : s.kind = bare.kind) (hletters : s.letters = bare.letters) (hcount : s.count = bare.count)
    (hgap : ∀ l ∈ s.endLayout, l.IsGap false) :
    s.IsTidy := by
  have ho := ofToken_ok h
  have hother : kind ≠ .multiply := by rcases hkind with rfl | rfl <;> decide
  have hdigit : c.isDigit = false := eq_false_of_countLetter hc Char.isDigit (by decide)
  have hsplit : kind.split token = (String.ofList ds, String.ofList [c]) := by
    have hplain : kind.split token =
        (String.ofList (token.toList.takeWhile Char.isDigit),
        String.ofList (token.toList.dropWhile Char.isDigit)) := by
      rcases hkind with rfl | rfl <;> rfl
    rw [hplain, htoken, List.takeWhile_append_of_pos hds, List.dropWhile_append_of_pos hds,
      List.takeWhile_cons_of_neg (by simp [hdigit]), List.dropWhile_cons_of_neg (by simp [hdigit]),
      List.append_nil]
  refine ⟨by
    rw [hs, ho.kind_eq]; exact hkind,
      ⟨c, ?_, by rw [hs, ho.kind_eq]; exact hc⟩, fun f hf ↦ ?_, hgap⟩
  · rw [hletters, ho.letters_eq, hsplit, String.toList_ofList]
  · have hint : countKind kind = .int := by rcases hkind with rfl | rfl <;> rfl
    have hsize : byteSize token.toList = ds.length + 1 := by
      rw [htoken, byteSize_eq_length, List.length_append, List.length_singleton]
      refine List.forall_mem_append.mpr ⟨fun d hd ↦
        utf8Size_of_isDigit (hds d hd), List.forall_mem_singleton.mpr ?_⟩
      simpa using eq_false_of_countLetter hc (·.utf8Size != 1) (by decide)
    rw [hcount] at hf
    unfold ofToken at h
    rw [hsplit, hint] at h
    dsimp only at h
    split_ifs at h with hempty
    · obtain rfl := Except.ok.inj h
      cases hf
    · have hne : ds ≠ [] := by
        rintro rfl
        exact hempty rfl
      split at h
      · next g hg =>
        obtain ⟨v, hv, rfl⟩ := Option.map_eq_some_iff.mp hg
        obtain ⟨m, hm, rfl⟩ := Option.map_eq_some_iff.mp hv
        rw [Number.readInt?_digits hne hds] at hm
        split_ifs at hm
        obtain rfl := Option.some.inj hm
        obtain rfl := Except.ok.inj h
        obtain rfl := Option.some.inj hf
        refine ⟨ds, Decimal.natOfDigits ds, hne, hds, by omega, rfl, ?_, rfl⟩
        unfold countValue at hn
        change (if (Decimal.natOfDigits ds : Int) < 0 then _ else
          if (Decimal.natOfDigits ds : Int) > Limits.shorthandCount then
          _ else Except.ok (Decimal.natOfDigits ds : Int).toNat) = Except.ok n at hn
        split_ifs at hn with hneg hlarge
        omega
      · cases h

end Shorthand

/-! ## Words -/

/-- The token of an integer, a jump or a repeat. -/
def Token.IsWhole (t : Token) : Prop :=
  t.kind.isNumber = true ∧ Number.IsIntegerText t.text.toList ∨
    ∃ kind, t.kind = .shorthand kind ∧ (kind = .jump ∨ kind = .copies)

/-- What spells a whole item is no layout. -/
theorem Token.IsWhole.isLayout_eq {t : Token} (h : t.IsWhole) : t.isLayout = false := by
  rcases h with ⟨hkind, -⟩ | ⟨kind, hkind, -⟩
  · exact isLayout_of_isNumber hkind
  · exact isLayout_of_kind hkind rfl

namespace Lexer.Cuts

variable {margin : Option Nat} {p : Position} {cs : List Char} {t u : Token} {ts us ls : List Token}
  {kind : ShorthandKind}

/-- A jump or a repeat is its count and its letter. -/
theorem exists_counted (h : Cuts .data margin p cs (t :: ts) []) (hkind : t.kind = .shorthand kind)
    (hcounts : kind = .jump ∨ kind = .copies) :
    ∃ ds d, t.text.toList = ds ++ [d] ∧ (∀ e ∈ ds, e.isDigit = true) ∧
      d.toLower = countedLetter kind := by
  obtain ⟨k, c, ds, cs', -, rfl, hlex, -⟩ := h.exists_of_cons
  obtain rfl : k = .shorthand kind := hkind
  have hclassify :=
    classify?_of_lexeme? (by decide) hlex (by rcases hcounts with rfl | rfl <;> decide)
  rw [← List.cons_append, List.take_left] at hclassify
  exact counted_of_classify? hcounts hclassify

/-- No blank is at the end of a word. -/
theorem exists_last (h : Cuts .data margin p cs (t :: ts) []) (ht : t.IsWhole) :
    ∃ d ∈ t.text.toList.getLast?, isAsciiBlank d = false := by
  rcases ht with ⟨-, hinteger⟩ | ⟨kind, hkind, hcounts⟩
  · have hne : t.text.toList ≠ [] := by
      intro hnil
      rw [hnil] at hinteger
      exact hinteger.nonempty rfl
    refine ⟨_, List.getLast?_eq_some_getLast hne, Bool.eq_false_iff.mpr fun hblank ↦ ?_⟩
    have := hinteger.isBlank_eq_false _ (List.getLast_mem hne)
    rw [isBlank_of_isAsciiBlank hblank] at this
    cases this
  · obtain ⟨ds, d, htext, -, hd⟩ := h.exists_counted hkind hcounts
    rw [htext, List.getLast?_concat]
    exact ⟨d, rfl, eq_false_of_countLetter hd isAsciiBlank (by decide)⟩

/-- The characters of a space are blanks. -/
theorem isAsciiBlank_of_mem (h : Cuts .data margin p cs ts []) (ht : t ∈ ts)
    (hspace : t.kind = .space) : ∀ d ∈ t.text.toList, isAsciiBlank d = true := by
  obtain ⟨before, after, rfl⟩ := List.append_of_mem ht
  obtain ⟨mid, -, hcuts⟩ := h.exists_of_append
  exact isAsciiBlank_of_mem_space hcuts hspace

/-- The layout behind a word is a gap; at the end of the record a comment may be open. -/
theorem isGap (h : Cuts .data margin p cs (t :: (ls ++ us)) []) (ht : t.IsWhole)
    (hls : ∀ l ∈ ls, l.isLayout = true) (hus : ∀ u ∈ us.head?, u.isLayout = false) :
    ∀ l ∈ Layout.ofTokens? ls, l.IsGap us.isEmpty := by
  have hlast := h.exists_last ht
  obtain ⟨kind, c, ds, cs', -, rfl, -, hrest⟩ := h.exists_of_cons
  rw [String.toList_ofList] at hlast
  rw [marginAfter_eq_none hlast] at hrest
  have hgap : Gap us.isEmpty none (textOf ls).toList := hrest.gap_in_front (by decide) hls hus
  rintro l hl
  have htext : l.text = textOf ls := by
    rw [← textOf_of_ofTokens?, hl]
    rfl
  refine ⟨by rwa [htext], ?_⟩
  unfold Layout.ofTokens? at hl
  split_ifs at hl
  · cases hl
  · obtain rfl := Option.some.inj hl
    exact Layout.hasSpaces_empty.foldl_pushToken fun v hv hspace ↦
      hrest.isAsciiBlank_of_mem (List.mem_append_left _ hv) hspace

/-- Two words do not touch if the first of them is an integer. -/
theorem not_touching (h : Cuts .data margin p cs (t :: u :: us) []) (ht : t.kind.isNumber = true)
    (hinteger : Number.IsIntegerText t.text.toList) : ¬u.IsWhole := by
  intro hu
  obtain ⟨kind, c, ds, cs', -, rfl, hlex, hrest⟩ := h.exists_of_cons
  rw [String.toList_ofList] at hinteger
  have hshape : Number.IsIntegerText u.text.toList ∨ ∃ kind es d, u.text.toList = es ++ [d] ∧
      (∀ e ∈ es, e.isDigit = true) ∧ d.toLower = countedLetter kind := by
    rcases hu with ⟨-, hu⟩ | ⟨kind', hkind', hcounts⟩
    · exact .inl hu
    · obtain ⟨es, d, hes⟩ := hrest.exists_counted hkind' hcounts
      exact .inr ⟨kind', es, d, hes⟩
  obtain ⟨kind', d, es, cs'', rfl, rfl, -, -⟩ := hrest.exists_of_cons
  obtain ⟨hnumber, hcounted⟩ := not_touched (by decide) hlex ht hinteger
  rw [String.toList_ofList] at hshape
  exact hshape.elim hnumber hcounted

end Lexer.Cuts

/-! ## Items -/

/-- The fields of an item are integers or open places with gaps behind them; those of a repeat have
room. -/
def Item.IsTidy : Item → Prop
  | field f => f.IsTidy
  | run s =>
      s.IsTidy ∧ (∀ f ∈ s.members, f.IsTidy) ∧
      (s.kind = .copies → ∀ f ∈ s.members, layoutText f.layout ≠ "")

namespace Production.SpellsItem

variable {margin : Option Nat} {p : Position} {cs : List Char} {ts us : List Token}
  {i : Item} {f : Field} {u : Token}

/-- A whole item is spelled by a whole token and layout. -/
theorem exists_head (h : SpellsItem ts i) (hwhole : i.IsWhole) :
    ∃ t us, ts = t :: us ∧ t.IsWhole := by
  induction h with
  | @field t ls f number read layout =>
    refine ⟨t, ls, rfl, .inl ⟨number, hwhole.2 t.text ?_⟩⟩
    obtain ⟨v, -, rfl⟩ := Option.map_eq_some_iff.mp read
    rfl
  | @jump id t ls s kind made layout => exact ⟨t, ls, rfl, .inr ⟨_, kind, .inl rfl⟩⟩
  | @chained id v t ls s kind made layout => exact ⟨t, ls, rfl, .inr ⟨_, kind, .inr rfl⟩⟩
  | @owned id ts ls f t s lead kind made layout ih =>
    obtain ⟨v, vs, rfl, hv⟩ := ih (isWhole_of_owned made hwhole)
    exact ⟨v, vs ++ t :: ls, rfl, hv⟩

/-- Something stands between an integer and the next word. -/
theorem room (h : SpellsItem ts (.field f)) (hwhole : f.IsWhole)
    (hcuts : Cuts .data margin p cs (ts ++ u :: us) []) (hu : u.IsWhole) :
    layoutText f.layout ≠ "" := by
  cases h with
  | @field t ls f number read layout =>
    have htoken : f.token = some t.text := by
      obtain ⟨v, -, rfl⟩ := Option.map_eq_some_iff.mp read
      rfl
    have hinteger := hwhole.2 t.text htoken
    change layoutText (Layout.ofTokens? ls) ≠ ""
    rw [textOf_of_ofTokens?]
    cases ls with
    | nil => exact absurd hu (hcuts.not_touching number hinteger)
    | cons l ls =>
      have hne := hcuts.partitions.nonempty l (by simp)
      rw [textOf_cons]
      exact fun hempty ↦ hne (String.append_eq_empty_iff.mp hempty).1

end Production.SpellsItem

namespace Shorthand

variable {id : Nat} {token : String} {behind b : Option Layout} {s : Shorthand} {lead : Lead}
  {ds : List Char} {c : Char}

/-- A jump without or with another layout behind it. -/
theorem isTidy_jump (h : jump id token behind = .ok s) (htoken : token.toList = ds ++ [c])
    (hds : ∀ d ∈ ds, d.isDigit = true) (hc : c.toLower = countedLetter .jump)
    (hshort : byteSize token.toList ≤ Limits.tokenBytes) :
    s.endLayout = behind ∧ ∀ b, (∀ l ∈ b, l.IsGap false) → ((Item.run s).setTrailing b).IsTidy := by
  obtain ⟨bare, hbare, h⟩ := exists_of_bind_ok h
  obtain ⟨n, hn, h⟩ := exists_of_bind_ok h
  obtain rfl := Except.ok.inj h
  have ho := ofToken_ok hbare
  refine ⟨ho.endLayout_eq, fun b hb ↦ ?_⟩
  rw [Item.setTrailing, setTrailing_of_counts]
  swap
  · exact .inl ho.kind_eq
  refine ⟨isTidy_of_ofToken hbare (.inl rfl) htoken hds hc hshort hn rfl rfl rfl hb,
    fun f hf ↦ ?_, fun hkind ↦ ?_⟩
  · rw [List.eq_of_mem_replicate hf]
    exact Field.isTidy_jump
  · exact absurd (ho.kind_eq.symm.trans hkind) (by decide)

/-- A repeat without or with another layout behind it. -/
theorem isTidy_copies (h : copies id lead token behind = .ok s) (htoken : token.toList = ds ++ [c])
    (hds : ∀ d ∈ ds, d.isDigit = true) (hc : c.toLower = countedLetter .copies)
    (hshort : byteSize token.toList ≤ Limits.tokenBytes)
    (hmembers : ∀ f ∈ lead.members, f.IsTidy ∧ layoutText f.layout ≠ "")
    (htemplate : lead.template.kind = .real → lead.template.IsTidy)
    (hwhole : ∀ f ∈ s.members, f.IsWhole) :
    s.endLayout = behind ∧ ∀ b, (∀ l ∈ b, l.IsGap false) → ((Item.run s).setTrailing b).IsTidy := by
  obtain ⟨bare, n, v, hbare, hn, hv, rfl⟩ := exists_of_copies_ok h
  have ho := ofToken_ok hbare
  refine ⟨ho.endLayout_eq, fun b hb ↦ ?_⟩
  rw [Item.setTrailing, setTrailing_of_counts]
  swap
  · exact .inr ho.kind_eq
  have hall : ∀ f ∈ (bare.withLead lead (List.replicate n (lead.template.withLayout .gap))).members,
      f.IsTidy ∧ layoutText f.layout ≠ "" := by
    refine List.forall_mem_append.mpr ⟨hmembers, fun f hf ↦ ?_⟩
    have hkind := (hwhole f (List.mem_append_right _ hf)).1
    rw [List.eq_of_mem_replicate hf] at hkind ⊢
    have hgap : layoutText (some .gap) ≠ "" := by decide
    exact ⟨(htemplate hkind).withGap, hgap⟩
  exact ⟨isTidy_of_ofToken hbare (.inr rfl) htoken hds hc hshort hn rfl rfl rfl hb, fun f hf ↦
    (hall f hf).1, fun _ f hf ↦ (hall f hf).2⟩

/-- What a chained repeat copies. -/
theorem isTidy_template (v : Option Value) (h : (Lead.chained v).template.kind = .real) :
    (Lead.chained v).template.IsTidy where
  kind_eq := h
  plain := rfl
  real := by
    intro u hu
    cases v with
    | none => cases hu
    | some v =>
      have hkind : v.kind = .real := h
      cases v <;> cases hkind
      obtain rfl := Option.some.inj hu
      rfl
  read := .inl ⟨rfl, rfl⟩
  gap := nofun

end Shorthand

namespace Production.SpellsItem

variable {margin : Option Nat} {p : Position} {cs : List Char} {ts us : List Token} {i : Item}

theorem trailing?_run {s : Shorthand} (h : Item.IsWhole (.run s)) :
    (Item.run s).trailing? = s.endLayout := by
  rcases h.1 with hkind | hkind <;>
    simp [Item.trailing?, Shorthand.trailing?, hkind, ShorthandKind.isInterpolation]

/-- An item that is read from a text, with any gap behind it; and its own gap. -/
theorem isTidy (h : SpellsItem ts i) (hwhole : i.IsWhole)
    (hcuts : Cuts .data margin p cs (ts ++ us) []) (hshort : ∀ t ∈ ts, IsShort t)
    (hus : ∀ u ∈ us.head?, u.isLayout = false) :
    (∀ b, (∀ l ∈ b, l.IsGap false) → (i.setTrailing b).IsTidy) ∧
      ∀ l ∈ i.trailing?, l.IsGap us.isEmpty := by
  have hbytes {t : Token} (ht : t.IsWhole) (h : IsShort t) :
      byteSize t.text.toList ≤ Limits.tokenBytes :=
    h.resolve_left (by simp [ht.isLayout_eq])
  induction h generalizing margin p cs us with
  | @field t ls f number read layout =>
    have hword : t.IsWhole := by
      obtain ⟨v, -, rfl⟩ := Option.map_eq_some_iff.mp read
      exact .inl ⟨number, hwhole.2 t.text rfl⟩
    have hinteger : Number.IsIntegerText t.text.toList := by
      obtain ⟨v, -, rfl⟩ := Option.map_eq_some_iff.mp read
      exact hwhole.2 t.text rfl
    exact ⟨fun b hb ↦
      Field.isTidy_of_parse? read hinteger (hbytes hword (hshort t List.mem_cons_self)) hb,
        hcuts.isGap hword layout hus⟩
  | @jump id t ls s kind made layout =>
    have hword : t.IsWhole := .inr ⟨_, kind, .inl rfl⟩
    obtain ⟨ds, d, htext, hds, hd⟩ := hcuts.exists_counted kind (.inl rfl)
    obtain ⟨hend, htidy⟩ :=
      Shorthand.isTidy_jump made htext hds hd (hbytes hword (hshort t List.mem_cons_self))
    rw [trailing?_run hwhole, hend]
    exact ⟨htidy, hcuts.isGap hword layout hus⟩
  | @chained id v t ls s kind made layout =>
    have hword : t.IsWhole := .inr ⟨_, kind, .inr rfl⟩
    obtain ⟨ds, d, htext, hds, hd⟩ := hcuts.exists_counted kind (.inr rfl)
    obtain ⟨hend, htidy⟩ :=
      Shorthand.isTidy_copies made htext hds hd (hbytes hword (hshort t List.mem_cons_self))
        (List.forall_mem_nil _) (Shorthand.isTidy_template v) hwhole.2
    rw [trailing?_run hwhole, hend]
    exact ⟨htidy, hcuts.isGap hword layout hus⟩
  | @owned id ts ls f t s lead kind made layout ih =>
    have hword : t.IsWhole := .inr ⟨_, kind, .inr rfl⟩
    have hf := isWhole_of_owned made hwhole
    rw [List.append_assoc, List.cons_append] at hcuts
    obtain ⟨hshortLead, hshort⟩ := List.forall_mem_append.mp hshort
    obtain ⟨mid, -, hbehind⟩ := hcuts.exists_of_append
    obtain ⟨ds, d, htext, hds, hd⟩ := hbehind.exists_counted kind (.inr rfl)
    obtain ⟨hset, hgap⟩ := ih hf hcuts hshortLead (by rintro _ ⟨⟩; exact hword.isLayout_eq)
    have htidy : f.IsTidy := hset f.layout hgap
    obtain ⟨hend, hrun⟩ :=
      Shorthand.isTidy_copies made htext hds hd (hbytes hword (hshort t List.mem_cons_self))
        (List.forall_mem_singleton.mpr ⟨htidy, lead.room hf hcuts hword⟩) (fun _ ↦ htidy) hwhole.2
    rw [trailing?_run hwhole, hend]
    exact ⟨hrun, hbehind.isGap hword layout hus⟩

end Production.SpellsItem

/-! ## Lists -/

theorem Item.setTrailing_trailing? {i : Item} (h : i.IsWhole) : i.setTrailing i.trailing? = i := by
  cases i with
  | field f => rfl
  | run s =>
    rw [Production.SpellsItem.trailing?_run h, setTrailing, Shorthand.setTrailing_of_counts h.1]

/-- What is whole without the layout behind it is whole with it. -/
theorem Item.isWhole_of_setTrailing {i : Item} {l : Option Layout} (h : (i.setTrailing l).IsWhole) :
    i.IsWhole := by
  cases i with
  | field f => exact h
  | run s =>
    have hkind : (s.setTrailing l).kind = s.kind := by
      unfold Shorthand.setTrailing
      split_ifs <;> rfl
    have hcounts : s.kind = .jump ∨ s.kind = .copies := hkind ▸ h.1
    rw [setTrailing, Shorthand.setTrailing_of_counts hcounts] at h
    exact h

/-- All items of a list but the last are tidy, and so is that without the layout behind it. -/
theorem Production.tidy_of_forall₂ {margin : Option Nat} {p : Position} {cs : List Char}
    {tss : List (List Token)} {is : List Item} {ws : List Token}
    (h : List.Forall₂ (fun us i ↦ i.IsWhole → SpellsItem us i) tss is)
    (hwhole : ∀ i ∈ is, i.IsWhole) (hcuts : Cuts .data margin p cs (tss.flatten ++ ws) [])
    (hshort : ∀ t ∈ tss.flatten, IsShort t) (hws : ∀ w ∈ ws.head?, w.isLayout = false) :
    (∀ i ∈ is.dropLast, i.IsTidy ∧ ∀ f, i = .field f → layoutText f.layout ≠ "") ∧
      ∀ i ∈ is.getLast?, (i.setTrailing none).IsTidy ∧ ∀ l ∈ i.trailing?, l.IsGap ws.isEmpty := by
  induction h generalizing margin p cs with
  | nil =>
    refine ⟨List.forall_mem_nil _, fun i hi ↦ ?_⟩
    cases hi
  | @cons ts i tss is hspells hrest ih =>
    obtain ⟨hi, hwhole⟩ := List.forall_mem_cons.mp hwhole
    rw [List.flatten_cons] at hcuts hshort
    rw [List.append_assoc] at hcuts
    obtain ⟨hshortHere, hshort⟩ := List.forall_mem_append.mp hshort
    cases hrest with
    | nil =>
      rw [List.flatten_nil, List.nil_append] at hcuts
      obtain ⟨hset, hgap⟩ := (hspells hi).isTidy hi hcuts hshortHere hws
      refine ⟨List.forall_mem_nil _, fun j hj ↦ ?_⟩
      obtain rfl : i = j := Option.some.inj hj
      exact ⟨hset none (fun l hl ↦ by cases hl), hgap⟩
    | @cons us j tss js hnext hrest =>
      have hj := hwhole j List.mem_cons_self
      obtain ⟨u, us, rfl, hu⟩ := (hnext hj).exists_head hj
      obtain ⟨hset, hgap⟩ :=
        (hspells hi).isTidy hi hcuts hshortHere (by rintro _ ⟨⟩; exact hu.isLayout_eq)
      obtain ⟨mid, -, hbehind⟩ := hcuts.exists_of_append
      obtain ⟨hfront, hlast⟩ := ih hwhole hbehind hshort
      refine ⟨List.forall_mem_cons.mpr ⟨⟨?_, ?_⟩, hfront⟩, hlast⟩
      · rw [← Item.setTrailing_trailing? hi]
        exact hset _ hgap
      · rintro f rfl
        exact (hspells hi).room hi hcuts hu

namespace FieldList

variable {l : FieldList}

/-- Each item of a list is kept as it is, or its layout is cut off. -/
theorem mem_detachTail {items : List Item} {i : Item} (hitems : l.items = items ++ [i]) :
    i ∈ l.detachTail.items ∨ i.setTrailing none ∈ l.detachTail.items := by
  have hlast : l.items.getLast? = some i := by rw [hitems, List.getLast?_concat]
  unfold detachTail mapLastItem
  rw [hlast]
  split
  · exact .inr (List.mem_append_right _ (List.mem_singleton_self _))
  · exact .inl (List.mem_of_getLast? hlast)

/-- The layout behind the last item is cut off, and becomes that of the list. -/
theorem detachTail_of_concat {items : List Item} {i : Item} (hitems : l.items = items ++ [i])
    (htail : l.tail = none) (hi : i.IsWhole) : l.detachTail.items = items ++ [i.setTrailing none] ∧
      layoutText l.detachTail.tail = layoutText i.trailing? := by
  have hlast : l.items.getLast? = some i := by rw [hitems, List.getLast?_concat]
  have hmap : l.mapLastItem (·.setTrailing none) =
      { l with items := items ++ [i.setTrailing none] } := by
    rw [mapLastItem, hlast, hitems]
    simp
  unfold detachTail
  rw [hlast, Option.bind_some]
  cases hbehind : i.trailing? with
  | none =>
    have heq := Item.setTrailing_trailing? hi
    rw [hbehind] at heq
    exact ⟨by rw [heq, hitems], by rw [htail]⟩
  | some behind =>
    dsimp only
    rw [hmap]
    refine ⟨rfl, ?_⟩
    rw [setTail, tailOrEmpty, htail]
    change (Layout.empty ++ behind).text = behind.text
    rw [Layout.text_append, Layout.text_empty, String.empty_append]

/-- Each run has a number of its own. -/
theorem Made.nodup_ids (h : l.Made) : ((l.items.filterMap Item.shorthand?).map (·.id)).Nodup := by
  rw [List.nodup_iff_pairwise_ne, List.pairwise_map, List.pairwise_filterMap,
    List.pairwise_iff_getElem]
  intro i j hi hj hlt r hr s hs
  have hr : l.items[i] = .run r := by
    cases hitem : l.items[i] with
    | field f => rw [hitem] at hr; cases hr
    | run r' => rw [hitem] at hr; rw [Option.some.inj hr]
  have hs : l.items[j] = .run s := by
    cases hitem : l.items[j] with
    | field f => rw [hitem] at hs; cases hs
    | run s' => rw [hitem] at hs; rw [Option.some.inj hs]
  have hsplit : l.items = l.items.take j ++ .run s :: l.items.drop (j + 1) := by
    rw [← hs, ← List.drop_eq_getElem_cons hj, List.take_append_drop]
  have hmem : .run r ∈ l.items.take j := hr ▸ List.mem_take_iff_getElem.mpr ⟨i, by omega, rfl⟩
  exact (h.fresh _ s _ hsplit r hmem).ne

/-- A list of tidy items with room between them is tidy. -/
theorem isTidy_of_items (hitems : ∀ i ∈ l.items, i.IsTidy)
    (hroom : ∀ i ∈ l.items.dropLast, ∀ f, i = .field f → layoutText f.layout ≠ "") (hmade : l.Made)
    {atEnd : Bool} (htail : Gap atEnd none (layoutText l.tail).toList) : l.IsTidy atEnd where
  fields := by
    intro f hf
    obtain ⟨i, hi, hf⟩ := List.mem_flatMap.mp hf
    have := hitems i hi
    cases i with
    | field g =>
      obtain rfl := List.mem_singleton.mp hf
      exact this
    | run s => exact this.2.1 f hf
  runs s hs := (hitems _ hs).1
  ids := hmade.nodup_ids
  own s hs := (hitems _ hs).2.2
  before f hf := hroom _ hf f rfl
  tail := htail

end FieldList

/-- A list of whole numbers that is read from a text is tidy. -/
theorem Production.Reads.values_tidy {c : Cursor} :
    Reads (Production.values .data .real) c fun l ts ↦
    (∀ i ∈ l.items, i.IsWhole) →
    (∀ t ∈ ts, IsShort t) → ∀ margin p cs ws, (∀ w ∈ ws.head?, w.isLayout = false) →
      Cuts .data margin p cs (ts ++ ws) [] → l.IsTidy ws.isEmpty := by
  refine (Reads.values_spell.and (Reads.values_made .data .real)).mono ?_
  rintro l ts ⟨⟨l₀, rfl, ⟨tss, htss, rfl⟩, htail⟩, hmade, -⟩ hwhole hshort margin p cs ws hws hcuts
  rcases List.eq_nil_or_concat' l₀.items with hnil | ⟨items, i, hitems⟩
  · have hsame : l₀.detachTail = l₀ := by
      rw [FieldList.detachTail, hnil]
      rfl
    rw [hsame] at hmade ⊢
    refine FieldList.isTidy_of_items ?_ ?_ hmade ?_
    · rw [hnil]
      exact List.forall_mem_nil _
    · rw [hnil]
      exact List.forall_mem_nil _
    · rw [htail]
      exact .nil
  · have hi : i.IsWhole := by
      rcases FieldList.mem_detachTail hitems with hmem | hmem
      · exact hwhole i hmem
      · exact Item.isWhole_of_setTrailing (hwhole _ hmem)
    obtain ⟨hdetached, htext⟩ := FieldList.detachTail_of_concat hitems htail hi
    rw [hdetached] at hwhole
    obtain ⟨hitemsWhole, -⟩ := List.forall_mem_append.mp hwhole
    have hall : ∀ j ∈ l₀.items, j.IsWhole := by
      rw [hitems]
      exact List.forall_mem_append.mpr ⟨hitemsWhole, List.forall_mem_singleton.mpr hi⟩
    obtain ⟨hfront, hlast⟩ := Production.tidy_of_forall₂ htss hall hcuts hshort hws
    rw [hitems, List.dropLast_concat] at hfront
    obtain ⟨hset, hgap⟩ := hlast i (by rw [hitems, List.getLast?_concat]; rfl)
    refine FieldList.isTidy_of_items ?_ ?_ hmade ?_
    · rw [hdetached]
      exact List.forall_mem_append.mpr ⟨fun j hj ↦
        (hfront j hj).1, List.forall_mem_singleton.mpr hset⟩
    · rw [hdetached, List.dropLast_concat]
      exact fun j hj ↦ (hfront j hj).2
    · rw [htext]
      cases hbehind : i.trailing? with
      | none => exact .nil
      | some behind => exact (hgap behind hbehind).gap

end TransportDeck
