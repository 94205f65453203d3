import TransportDeck.Proofs.Grammar.Expansion
import TransportDeck.Proofs.Node.EditedNumbers
import TransportDeck.Proofs.Token.ListWords
import TransportDeck.Proofs.Token.Numerals

/-!
# Texts of lists

A list of whole numbers, jumps and repeats is written as words with gaps between them.  The lexer
makes one token of each word, whatever stands in front of the list, and the tokens expand to what
the items stand for.
-/

namespace TransportDeck

open Text Lexer WrittenItem

/-- A value that is read is the number that was set, and an open place stays open. -/
def ReadsAs : Option Value → Option Int → Prop
  | some v, some n => ∃ x, v.toReal? = some x ∧ HoldsInt x n
  | none, none => True
  | _, _ => False

/-! ## Words -/

/-- The characters of one item: a whole number, or the digits and the letter of a jump or a
repeat. -/
inductive IsWord : WrittenItem → List Char → Prop where
  | number {cs : List Char} {x : Float} (integer : Number.IsIntegerText cs)
      (reads : Number.readReal? (String.ofList cs) = some x) : IsWord (.value (.real x)) cs
  | counted {kind : ShorthandKind} {i : WrittenItem} {ds : List Char} {c : Char}
      (counts : kind = .jump ∨ kind = .copies) (digits : ∀ d ∈ ds, d.isDigit = true)
      (letter : c.toLower = countedLetter kind)
      (item : ∀ ts, ofShorthand? kind (String.ofList (ds ++ [c])) ts = some (i, ts)) :
        IsWord i (ds ++ [c])

/-- A token of a list of numbers and shorthands. -/
def Token.IsListed (t : Token) : Prop :=
  t.isLayout = true ∨ t.kind.isNumber = true ∨ t.kind.isShorthand = true

variable {i : WrittenItem} {is : List WrittenItem} {w g cs rest : List Char} {margin : Option Nat}
  {t : Token} {ts us : List Token} {atEnd : Bool}

/-- The token is that of the item. -/
structure Token.IsItem (t : Token) (i : WrittenItem) : Prop where
  listed : t.IsListed
  solid : t.isLayout = false
  goes_on : ∀ ts, inFront .data (t :: ts) = true
  read : ∀ ts, front? .data (t :: ts) = some (i, behindLayout ts)

namespace IsWord

/-- No word is empty, and none has a blank. -/
theorem ne_nil (h : IsWord i w) : w ≠ [] := by
  cases h with
  | number integer =>
    rintro rfl
    exact integer.nonempty rfl
  | counted => exact List.append_ne_nil_of_right_ne_nil _ (List.cons_ne_nil _ _)

theorem isBlank_eq_false (h : IsWord i w) : ∀ c ∈ w, isBlank c = false := by
  cases h with
  | number integer => exact integer.isBlank_eq_false
  | counted counts digits letter =>
    refine List.forall_mem_append.mpr ⟨fun d hd ↦ ?_, List.forall_mem_singleton.mpr ?_⟩
    · exact eq_false_of_isDigit (digits d hd) isBlank (by decide)
    · exact eq_false_of_countLetter letter isBlank (by decide)

/-- In front of the end of a word it is lexed as one token. -/
theorem exists_lexeme? {c : Char} (h : IsWord i (c :: cs)) (hrest : Closes rest)
    (margin : Option Nat) :
    ∃ kind, lexeme? .data margin c (cs ++ rest) = some (kind, (c :: cs).length) ∧
      ∀ span, Token.IsItem ⟨kind, String.ofList (c :: cs), span⟩ i := by
  generalize htext : c :: cs = text at h
  cases h with
  | @number _ x integer reads =>
    subst htext
    refine ⟨_, lexeme?_integer (by decide) integer hrest, fun span ↦ ?_⟩
    generalize String.ofList (c :: cs) = text at reads ⊢
    rcases classifyNumber_cases text with hkind | hkind <;> rw [hkind] <;>
      exact ⟨.inr (.inl rfl), rfl, fun ts ↦ rfl, fun ts ↦ by
        simp only [front?, WrittenItem.number?, TokenKind.isNumber,
          if_true, reads, Option.map_some]⟩
  | @counted kind i ds d counts digits letter item =>
    rw [← htext]
    refine ⟨.shorthand kind, lexeme?_counted (by decide) counts digits letter htext.symm hrest,
      fun span ↦ ?_⟩
    rw [htext]
    exact ⟨.inr (.inr rfl), rfl, fun ts ↦ rfl, fun ts ↦ item _⟩

end IsWord

/-! ## Texts -/

/-- The text of items: each is a word that ends in front of what follows, perhaps behind a gap.  At
the end of a record a comment may be open in the last gap; elsewhere the gap keeps the items apart
from what is behind them. -/
inductive Strung (atEnd : Bool) : List WrittenItem → List Char → Prop where
  | last {cs : List Char} (gap : Gap atEnd none cs) (room : atEnd = false → cs ≠ []) :
      Strung atEnd [] cs
  | word {i : WrittenItem} {is : List WrittenItem} {g w cs : List Char} (gap : Gap false none g)
      (word : IsWord i w) (short : byteSize w ≤ Limits.tokenBytes) (closes : Closes cs)
        (rest : Strung atEnd is cs) :
      Strung atEnd (i :: is) (g ++ (w ++ cs))

/-- The items and the tokens of their words, with layout between them, up to other tokens. -/
inductive Shows (rest : List Token) : List WrittenItem → List Token → Prop where
  | nil : Shows rest [] rest
  | item {i : WrittenItem} {is : List WrittenItem} {t : Token} {ts : List Token}
      (token : t.IsItem i) (behind : Shows rest is (behindLayout ts)) :
        Shows rest (i :: is) (t :: ts)

theorem behindLayout_append (h : ∀ t ∈ ts, t.isLayout = true) (us : List Token) :
    behindLayout (ts ++ us) = behindLayout us := List.dropWhile_append_of_pos h

theorem behindLayout_solid (h : t.isLayout = false) (us : List Token) :
    behindLayout (t :: us) = t :: us :=
  List.dropWhile_cons_of_neg (by simp [h])

/-- Tokens that start with no layout may follow. -/
theorem behindLayout_followed (h : ∀ u ∈ us.head?, u.isLayout = false) (ts : List Token) :
    behindLayout (ts ++ us) = behindLayout ts ++ us := by
  have hus : us.dropWhile Token.isLayout = us := by
    cases us with
    | nil => rfl
    | cons u us => exact behindLayout_solid (h u rfl) us
  unfold behindLayout
  rw [List.dropWhile_append]
  split_ifs with hempty
  · rw [hus, List.isEmpty_iff.mp hempty, List.nil_append]
  · rfl

theorem Shows.followed (h : Shows [] is ts) (hus : ∀ u ∈ us.head?, u.isLayout = false) :
    Shows us is (ts ++ us) := by
  induction h with
  | nil => exact .nil
  | @item i is t ts token behind ih =>
    rw [List.cons_append]
    refine .item token ?_
    rwa [behindLayout_followed hus]

namespace Strung

/-- More of a gap in front. -/
theorem gap_append (hg : Gap false none g) (h : Strung atEnd is cs) :
    Strung atEnd is (g ++ cs) := by
  cases h with
  | last gap room =>
    exact .last (hg.append (gap.moved _)) fun hend ↦
      List.append_ne_nil_of_right_ne_nil _ (room hend)
  | word gap word short closes rest =>
    rw [← List.append_assoc]
    exact .word (hg.append (gap.moved _)) word short closes rest

/-- Some text sets the items apart from what is behind them. -/
theorem ne_nil (h : Strung atEnd is cs) (hend : atEnd = false) : cs ≠ [] := by
  cases h with
  | last gap room => exact room hend
  | word gap word =>
    exact List.append_ne_nil_of_right_ne_nil _ (List.append_ne_nil_of_left_ne_nil word.ne_nil _)

/-- Words still end there when other text follows. -/
theorem closes_append (h : Strung atEnd is cs) (hcloses : Closes cs)
    (hrest : atEnd = true → rest = []) : Closes (cs ++ rest) := by
  cases hend : atEnd with
  | true => rwa [hrest hend, List.append_nil]
  | false =>
    obtain ⟨c, cs, rfl⟩ := List.exists_cons_of_ne_nil (h.ne_nil hend)
    exact hcloses

/-- Whatever stands in front and behind, the tokens of the text show its items. -/
theorem exists_cuts (h : Strung atEnd is cs) (hsolid : StartsSolid rest)
    (hrest : atEnd = true → rest = []) (margin : Option Nat) (p : Position) :
    ∃ ts, Cuts .data margin p (cs ++ rest) ts rest ∧
      (∀ t ∈ ts, IsShort t) ∧ (∀ t ∈ ts, t.IsListed) ∧ Shows [] is (behindLayout ts) := by
  have hmode : LexMode.data ≠ .read := by decide
  induction h generalizing margin p with
  | last gap =>
    obtain ⟨ls, hls, hlayout⟩ := (gap.moved margin).exists_cuts hmode hsolid hrest p
    refine ⟨ls, hls, fun t ht ↦ .inl (hlayout t ht), fun t ht ↦ .inl (hlayout t ht), ?_⟩
    have hnil := behindLayout_append hlayout []
    rw [List.append_nil] at hnil
    rw [hnil]
    exact .nil
  | @word i is g w cs gap word short closes behind ih =>
    obtain ⟨c, ws, rfl⟩ := List.exists_cons_of_ne_nil word.ne_nil
    have hc : isBlank c = false := word.isBlank_eq_false c List.mem_cons_self
    have hword : StartsSolid (c :: ws ++ (cs ++ rest)) := startsSolid_of_head? ⟨c, rfl, hc⟩
    obtain ⟨ls, hls, hlayout⟩ :=
      (gap.moved margin).exists_cuts hmode hword (fun hlast ↦ by cases hlast) p
    obtain ⟨kind, hlex, hitem⟩ :=
      word.exists_lexeme? (behind.closes_append closes hrest)
        (marginAfter margin (textOf ls).toList)
    obtain ⟨us, hus, hshort, hlisted, hshows⟩ :=
      ih (marginAfter (marginAfter margin (textOf ls).toList) (c :: ws))
        ((p.advance (textOf ls).toList).advance (c :: ws))
    have hall := hls.append (.cons hlex hus)
    rw [← List.append_assoc (c :: ws), ← List.append_assoc g] at hall
    refine ⟨_, hall, ?_, ?_, ?_⟩
    · refine List.forall_mem_append.mpr ⟨fun t ht ↦
        .inl (hlayout t ht), List.forall_mem_cons.mpr ⟨.inr ?_, hshort⟩⟩
      rwa [String.toList_ofList]
    · exact List.forall_mem_append.mpr ⟨fun t ht ↦ .inl (hlayout t ht),
        List.forall_mem_cons.mpr ⟨(hitem _).listed, hlisted⟩⟩
    · rw [behindLayout_append hlayout, behindLayout_solid (hitem _).solid]
      exact .item (hitem _) hshows

end Strung

/-! ## What items stand for -/

/-- The items stand for the numbers, behind a last number; none does for an open place. -/
inductive Stands : Option Int → List WrittenItem → List (Option Int) → Prop where
  | nil {before : Option Int} : Stands before [] []
  | value {before : Option Int} {x : Float} {n : Int} {is : List WrittenItem}
      {ns : List (Option Int)} (holds : HoldsInt x n) (rest : Stands (some n) is ns) :
        Stands before (.value (.real x) :: is) (some n :: ns)
  | jump {before : Option Int} {k : Nat} {is : List WrittenItem} {ns : List (Option Int)}
      (rest : Stands none is ns) : Stands before (.jump k :: is) (List.replicate k none ++ ns)
  | copies {n : Int} {k : Nat} {is : List WrittenItem} {ns : List (Option Int)}
      (rest : Stands (some n) is ns) :
        Stands (some n) (.copies k :: is) (List.replicate k (some n) ++ ns)

theorem forall₂_replicate {α β : Type} {R : α → β → Prop} {a : α} {b : β} (k : Nat) (h : R a b) :
    List.Forall₂ R (List.replicate k a) (List.replicate k b) := by
  induction k with
  | zero => exact .nil
  | succ k ih => exact .cons h ih

/-- The tokens of the items expand to the numbers that they stand for. -/
theorem Stands.exists_expansion {before : Option Int} {ns : List (Option Int)}
    (h : Stands before is ns) (hshows : Shows us is ts) (vs : List (Option Value))
    (hbefore : ∀ n ∈ before, ∃ x, vs.getLast?.join = some (.real x) ∧ HoldsInt x n) : ∃ ws,
      Relation.ReflTransGen (ExpansionStep .data) (vs, ts)
        (vs ++ ws, us) ∧ List.Forall₂ ReadsAs ws ns := by
  induction h generalizing vs ts with
  | nil =>
    cases hshows
    exact ⟨[], by rw [List.append_nil], .nil⟩
  | @value before x n is ns holds rest ih =>
    cases hshows with
    | @item _ _ t _ token hrest =>
    obtain ⟨ws, hsteps, hws⟩ := ih hrest (vs ++ [some (.real x)]) (by
      rintro _ ⟨⟩
      exact ⟨x, by simp, holds⟩)
    refine ⟨some (.real x) :: ws, .head (.item (token.goes_on _) (token.read _) rfl) ?_,
      .cons ⟨x, rfl, holds⟩ hws⟩
    rwa [List.append_assoc] at hsteps
  | @jump before k is ns rest ih =>
    cases hshows with
    | @item _ _ t _ token hrest =>
    obtain ⟨ws, hsteps, hws⟩ := ih hrest (vs ++ List.replicate k none) nofun
    refine ⟨List.replicate k none ++ ws, .head (.item (token.goes_on _) (token.read _) rfl) ?_, ?_⟩
    · rwa [List.append_assoc] at hsteps
    · exact List.rel_append (forall₂_replicate k trivial) hws
  | @copies n k is ns rest ih =>
    cases hshows with
    | @item _ _ t _ token hrest =>
    obtain ⟨x, hx, hholds⟩ := hbefore n rfl
    let copied := List.replicate k (some (Value.real x))
    have hvalues : (WrittenItem.copies k).contribution? vs.getLast?.join = some copied := by
      rw [hx]; rfl
    have hlast : (vs ++ copied).getLast?.join = some (.real x) := by
      cases k with
      | zero => simpa [copied] using hx
      | succ k => simp [copied, List.replicate_succ', List.getLast?_append]
    obtain ⟨ws, hsteps, hws⟩ := ih hrest (vs ++ copied) (by
      rintro _ ⟨⟩
      exact ⟨x, hlast, hholds⟩)
    refine ⟨copied ++ ws, .head (.item (token.goes_on _) (token.read _) hvalues) ?_, ?_⟩
    · rwa [List.append_assoc] at hsteps
    · exact List.rel_append (forall₂_replicate k ⟨x, rfl, hholds⟩) hws

end TransportDeck
