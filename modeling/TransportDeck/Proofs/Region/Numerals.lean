import TransportDeck.Proofs.Region.NarrowedTrees
import TransportDeck.Proofs.Region.Reparse
import TransportDeck.Proofs.Token.ListWords

/-!
# Numbers in a row

A run that is spelled out is a row of numbers with blanks between them.  The numbers are within the
range of integers, as the one is that the run goes on from, so each of them is a token, and behind a
chain they are a chain again.
-/

namespace TransportDeck

/-! ## Values within the range -/

namespace Number

def InRange (n : Int) : Prop := minInt ≤ n ∧ n ≤ maxInt

theorem inRange_of_readInt? {text : String} {n : Int} (h : readInt? text = some n) : InRange n := by
  unfold readInt? at h
  split at h
  extract_lets m value at h
  split_ifs at h with hdigits hrange
  obtain rfl := Option.some.inj h
  exact ⟨of_decide_eq_true (Bool.and_eq_true_iff.mp hrange).1,
    of_decide_eq_true (Bool.and_eq_true_iff.mp hrange).2⟩

/-- The whole part of a float is held within the range. -/
theorem inRange_truncate (x : Float) : InRange (truncate x) := by
  have hle : minInt ≤ maxInt := by decide
  unfold truncate
  split
  · exact ⟨by decide, by decide⟩
  · exact ⟨le_max_left _ _, max_le hle (min_le_left _ _)⟩

end Number

/-- The integer that the value stands for, if any, is within the range. -/
def Value.InRange (v : Value) : Prop := ∀ n, v.toInt? = some n → Number.InRange n

theorem Value.inRange_real (x : Float) : (Value.real x).InRange := by
  intro n hn
  simp only [toInt?] at hn
  split_ifs at hn
  obtain rfl := Option.some.inj hn
  exact Number.inRange_truncate x

namespace Shorthand

variable {s : Shorthand} {before : Option Value} {token : String}

/-- The values of a run are copies of the value before it, or its product. -/
theorem GoesOn.inRange (h : s.GoesOn before token) (hbefore : ∀ v ∈ before, v.InRange) :
    ∀ f ∈ s.members, ∀ v ∈ f.signed, v.InRange := by
  obtain ⟨id, h | h⟩ := h
  · obtain ⟨bare, n, v, -, -, hv, rfl⟩ := exists_of_copies_ok h
    intro f hf u hu
    obtain rfl := List.eq_of_mem_replicate hf
    rw [Field.signed_withLayout, Lead.signed_template hv] at hu
    obtain rfl := Option.some.inj hu
    exact hbefore v hv
  · obtain ⟨bare, f, factor, base, -, -, -, -, rfl⟩ := exists_of_multiply_ok h
    intro f hf u hu
    obtain rfl := List.mem_singleton.mp hf
    obtain rfl : .real (base * factor) = u := Option.some.inj hu
    exact Value.inRange_real _

theorem GoesOn.inRange_edge (h : s.GoesOn before token) (hbefore : ∀ v ∈ before, v.InRange) :
    ∀ v ∈ s.edge?, v.InRange := by
  intro v hv
  obtain ⟨f, hf, hsigned⟩ := Option.bind_eq_some_iff.mp hv
  exact h.inRange hbefore f (List.mem_of_getLast? hf) v hsigned

theorem GoesOn.inRange_numbers (h : s.GoesOn before token) (hbefore : ∀ v ∈ before, v.InRange) :
    ∀ n ∈ s.numbers, Number.InRange n := by
  intro n hn
  obtain ⟨f, hf, hint⟩ := List.mem_filterMap.mp hn
  obtain ⟨v, hv, hint⟩ := Option.bind_eq_some_iff.mp hint
  exact h.inRange hbefore f hf v hv n hint

end Shorthand

/-- The value at the right edge of what is read is within the range. -/
theorem GeometryTree.Parsed.inRange_edge {level : PhraseLevel} {room : Nat} {tree : GeometryTree}
    {ts : List Token} {l : Option Layout} (h : tree.Parsed level room ts l) :
    ∀ v ∈ tree.edge?, v.InRange := by
  induction h with
  | leaf _ value =>
    obtain ⟨n, hn, hholds⟩ := Field.holds_of_parse? value
    intro v hv m hm
    have htoInt : Field.toInt? _ = some m := Option.bind_eq_some_iff.mpr ⟨v, hv, hm⟩
    obtain rfl := Option.some.inj (htoInt.symm.trans hholds.toInt?_eq)
    exact Number.inRange_of_readInt? hn
  | run _ _ goesOn _ ih => exact goesOn.inRange_edge ih
  | intersection _ _ _ ih | union _ _ _ _ _ ih | group _ _ _ _ _ ih | complement _ _ _ ih
  | ofGroup _ ih | ofFactor _ ih | ofIntersection _ ih => exact ih

/-! ## Tokens -/

/-- The token of a number in a geometry. -/
structure Token.Names (t : Token) (n : Int) : Prop where
  kind : t.kind.isNumber = true
  value : Number.readInt? t.text = some n

/-- The tokens of numbers with a blank between any two of them, and perhaps one in front. -/
inductive Numerals : Bool → List Int → List Token → Prop where
  | last {t : Token} {n : Int} (names : t.Names n) : Numerals false [n] [t]
  | cons {t : Token} {n : Int} {ns : List Int} {us : List Token} (names : t.Names n)
      (rest : Numerals true ns us) : Numerals false (n :: ns) (t :: us)
  | gap {sp : Token} {ns : List Int} {us : List Token} (space : sp.kind = .space)
      (rest : Numerals false ns us) : Numerals true ns (sp :: us)

/-- The text of numbers with blanks between them. -/
def numeralText (gap : Bool) (ns : List Int) : String :=
  (if gap then " " else "") ++ " ".intercalate (ns.map toString)

@[simp] theorem numeralText_singleton (n : Int) : numeralText true [n] = " " ++ toString n := by
  simp [numeralText]

/-- The numbers behind the first one have a gap in front. -/
theorem numeralText_cons {ns : List Int} (n : Int) (hns : ns ≠ []) :
    numeralText false (n :: ns) = toString n ++ numeralText true ns := by
  obtain ⟨m, ns, rfl⟩ := List.exists_cons_of_ne_nil hns
  simp [numeralText, String.intercalate_cons_cons, String.append_assoc]

/-- In front of the numbers stands the gap. -/
theorem numeralText_true (ns : List Int) : numeralText true ns = " " ++ numeralText false ns := by
  simp [numeralText]

/-- Numbers start with a digit or a sign. -/
theorem isSolid_numeralText {ns : List Int} (hns : ns ≠ []) :
    RegionTree.IsSolid (numeralText false ns) := by
  match ns, hns with
  | [n], _ => simpa [numeralText] using RegionTree.isSolid_toString n
  | n :: m :: ns, _ =>
    rw [numeralText_cons n (List.cons_ne_nil m ns)]
    exact (RegionTree.isSolid_toString n).append _

/-- Numbers end with a digit. -/
theorem exists_digit_of_numeralText {ns : List Int} (gap : Bool) (hns : ns ≠ []) :
    ∃ d ∈ (numeralText gap ns).toList.getLast?, d.isDigit = true := by
  obtain ⟨ms, n, rfl⟩ := (List.eq_nil_or_concat' ns).resolve_left hns
  have hinteger := Lexer.isInteger_toString n
  obtain ⟨d, hd⟩ : ∃ d, (Nat.toDigits 10 n.natAbs).getLast? = some d :=
    ⟨_, List.getLast?_eq_some_getLast hinteger.nonempty⟩
  have hfront : ∃ front, numeralText gap (ms ++ [n]) = front ++ toString n := by
    cases ms with
    | nil => exact ⟨if gap then " " else "", by simp [numeralText]⟩
    | cons m ms =>
      refine ⟨(if gap then " " else "") ++ (" ".intercalate ((m :: ms).map toString) ++ " "), ?_⟩
      rw [numeralText, List.map_append, String.intercalate_append_of_ne_nil (by simp) (by simp)]
      simp [String.append_assoc]
  obtain ⟨front, hfront⟩ := hfront
  refine ⟨d, ?_, hinteger.allDigits d (List.mem_of_getLast? hd)⟩
  rw [hfront, String.toList_append, hinteger.eq, ← List.append_assoc,
    List.getLast?_append_of_ne_nil _ hinteger.nonempty]
  exact hd

/-! ## Lexing -/

namespace Lexer

variable {rest : List Char} {margin : Option Nat}

/-- A number is a token. -/
theorem exists_cuts_number (margin : Option Nat) {n : Int} (hn : Number.InRange n)
    (hrest : Closes rest) (p : Position) :
    ∃ t, Cuts .cell margin p ((toString n).toList ++ rest) [t] rest ∧ t.Names n ∧ IsShort t := by
  have hread := Number.readInt?_toString hn
  have hinteger := Number.isIntegerText_of_readInt? hread
  have hshort := byteSize_toString_le hn
  obtain ⟨c, cs, hcs⟩ := List.exists_cons_of_ne_nil (isInteger_toString n).ne_nil
  rw [hcs] at hinteger hshort ⊢
  have hcuts : Cuts .cell margin p (c :: cs ++ rest) _ rest :=
    .cons (lexeme?_integer (by decide) hinteger hrest) .done
  have htext : String.ofList (c :: cs) = toString n := by rw [← hcs, String.ofList_toList]
  refine ⟨_, hcuts, ⟨?_, ?_⟩, .inr ?_⟩
  · rcases classifyNumber_cases (String.ofList (c :: cs)) with hkind | hkind <;> exact hkind ▸ rfl
  · exact htext ▸ hread
  · rwa [String.toList_ofList]

/-- Numbers are a token each, and so are the blanks between them. -/
theorem exists_cuts_numerals {ns : List Int} (gap : Bool) (hne : ns ≠ [])
    (hns : ∀ n ∈ ns, Number.InRange n) (hrest : Closes rest) (p : Position) :
    ∃ us, Cuts .cell margin p ((numeralText gap ns).toList ++ rest) us rest ∧
      Numerals gap ns us ∧ ∀ u ∈ us, IsShort u := by
  induction ns generalizing gap margin p with
  | nil => exact absurd rfl hne
  | cons n ns ih =>
    obtain ⟨hn, hns⟩ := List.forall_mem_cons.mp hns
    have unspaced (margin : Option Nat) (p : Position) :
        ∃ us, Cuts .cell margin p ((numeralText false (n :: ns)).toList ++ rest) us rest ∧
          Numerals false (n :: ns) us ∧ ∀ u ∈ us, IsShort u := by
      by_cases hnil : ns = []
      · subst hnil
        obtain ⟨t, hcuts, hnames, hshort⟩ := exists_cuts_number margin hn hrest p
        refine ⟨[t], ?_, .last hnames, List.forall_mem_singleton.mpr hshort⟩
        simpa [numeralText] using hcuts
      · have hcloses : Closes ((numeralText true ns).toList ++ rest) := by
          rw [numeralText_true, String.toList_append]
          exact closes_of_mem_breaks (by decide) _
        obtain ⟨t, hcuts, hnames, hshort⟩ := exists_cuts_number margin hn hcloses p
        obtain ⟨us, hrest, hus, hshorts⟩ := ih true hnil hns _
        refine ⟨t :: us, ?_, .cons hnames hus, List.forall_mem_cons.mpr ⟨hshort, hshorts⟩⟩
        rw [numeralText_cons n hnil, String.toList_append, List.append_assoc]
        exact hcuts.append hrest
    cases gap with
    | false => exact unspaced margin p
    | true =>
      obtain ⟨us, hcuts, hus, hshorts⟩ := unspaced _ _
      have hspaced : Cuts .cell margin p
          (' ' :: [] ++ ((numeralText false (n :: ns)).toList ++ rest)) _ rest :=
        .cons (lexeme?_space ((isSolid_numeralText hne).startsSolid rest)) hcuts
      rw [numeralText_true, String.toList_append, List.append_assoc]
      exact ⟨_, hspaced, .gap rfl hus, List.forall_mem_cons.mpr ⟨.inl rfl, hshorts⟩⟩

end Lexer

/-! ## Phrases -/

theorem allLayout_singleton {sp : Token} (h : sp.kind = .space) : AllLayout [sp] :=
  List.forall_mem_singleton.mpr (by rw [Token.isLayout, h]; rfl)

/-- Numbers behind a chain join it one by one. -/
theorem Phrase.append_numerals {x : RegionTree} {e : Option Value} {ts ls us : List Token}
    {gap : Bool} {ns : List Int} (h : Phrase .intersection x e ts) (hls : AllLayout ls)
    (hus : Numerals gap ns us) : ∃ e', Phrase .intersection
      (ns.foldl (fun y n ↦ .join .and y (.unit (.surface n))) x) e' (ts ++ (ls ++ us)) := by
  induction hus generalizing x e ts ls with
  | last names => exact ⟨_, .intersection h hls (.surface names.kind names.value)⟩
  | cons names _ ih =>
    obtain ⟨e', hphrase⟩ :=
      ih (.intersection h hls (.surface names.kind names.value)) RegionTree.allLayout_nil
    exact ⟨e', by simpa using hphrase⟩
  | gap space _ ih =>
    obtain ⟨e', hphrase⟩ :=
      ih h (List.forall_mem_append.mpr ⟨hls, allLayout_singleton space⟩)
    exact ⟨e', by simpa using hphrase⟩

/-- A chain of numbers may be joined as a whole. -/
theorem RegionTree.agrees_foldl {ns : List Int} {x y : RegionTree} (h : ofNumbers? ns = some y) :
    (ns.foldl (fun z n ↦ .join .and z (.unit (.surface n))) x).Agrees (.join .and x y) := by
  induction ns using List.reverseRecOn generalizing y with
  | nil => cases h
  | append_singleton ns m ih =>
    cases ns with
    | nil =>
      obtain rfl : .unit (.surface m) = y := Option.some.inj h
      exact .refl _
    | cons n ns =>
      obtain ⟨z, hz, rfl⟩ := Option.map_eq_some_iff.mp ((ofNumbers?_concat n m ns).symm.trans h)
      rw [List.foldl_append]
      exact ((ih hz).join .and (.refl _)).trans (.assoc .and x z _)

end TransportDeck
