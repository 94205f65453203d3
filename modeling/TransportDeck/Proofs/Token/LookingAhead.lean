import TransportDeck.Proofs.Token.Lexing

/-!
# Looking ahead

A stream looks past layout by an index of the tokens that are none, in which it finds its place by
halving.  The index is increasing, so what halving finds splits it at the place of the stream; what
stands behind the split are the tokens that a walk over the rest of the stream would find.  This
holds wherever the stream is moved to.
-/

namespace TransportDeck

namespace TokenStream

/-! ## Halving -/

/-- What halving knows of the entries outside of the part that it still looks at. -/
structure Splits (places : Array Nat) (bound low high : Nat) : Prop where
  low_le_high : low ≤ high
  high_le_size : high ≤ places.size
  below : ∀ i p, places[i]? = some p → i < low → p < bound
  above : ∀ i p, places[i]? = some p → high ≤ i → bound ≤ p

variable {places : Array Nat} {bound low high : Nat}

theorem splits_zero_size (places : Array Nat) (bound : Nat) :
    Splits places bound 0 places.size where
  low_le_high := Nat.zero_le _
  high_le_size := le_rfl
  below _ _ _ hi := absurd hi (Nat.not_lt_zero _)
  above i p hp hi := by
    have hlt : i < places.size := (Array.getElem?_eq_some_iff.mp hp).1
    exact absurd hlt (Nat.not_lt.mpr hi)

theorem le_of_increasing (hplaces : places.toList.Pairwise (· < ·)) {i j p q : Nat} (hij : i ≤ j)
    (hp : places[i]? = some p) (hq : places[j]? = some q) : p ≤ q := by
  rw [← Array.getElem?_toList] at hp hq
  obtain ⟨hi, rfl⟩ := List.getElem?_eq_some_iff.mp hp
  obtain ⟨hj, rfl⟩ := List.getElem?_eq_some_iff.mp hq
  rcases hij.eq_or_lt with rfl | hlt
  · exact le_rfl
  · exact (List.pairwise_iff_getElem.mp hplaces i j hi hj hlt).le

/-- The part that is looked at shrinks to a single place. -/
theorem Splits.countBelow (hplaces : places.toList.Pairwise (· < ·))
    (h : Splits places bound low high) :
    Splits places bound (countBelow places bound low high) (countBelow places bound low high) := by
  fun_induction TokenStream.countBelow places bound low high with
  | case1 low high hlt middle p hp hbelow ih =>
    have hmiddle : middle < high := by omega
    refine ih ⟨by omega, h.high_le_size, fun i q hq hi ↦ ?_, h.above⟩
    exact (le_of_increasing hplaces (Nat.lt_succ_iff.mp hi) hq hp).trans_lt hbelow
  | case2 low high hlt middle p hp hbelow ih =>
    have hmiddle : middle < high := by omega
    refine ih ⟨by omega, hmiddle.le.trans h.high_le_size, h.below, fun i q hq hi ↦ ?_⟩
    exact (Nat.not_lt.mp hbelow).trans (le_of_increasing hplaces hi hp hq)
  | case3 low high hlt middle hnone ih =>
    have hmiddle : middle < places.size := by
      have := h.high_le_size
      omega
    rw [Array.getElem?_eq_getElem hmiddle] at hnone
    cases hnone
  | case4 low high hge =>
    obtain rfl := h.low_le_high.antisymm (Nat.not_lt.mp hge)
    exact h

/-- Behind the place that halving finds are the entries from the bound on. -/
theorem drop_countBelow (hplaces : places.toList.Pairwise (· < ·)) (bound : Nat) :
    places.toList.drop (countBelow places bound 0 places.size) =
      places.toList.filter (bound ≤ ·) := by
  have h := (splits_zero_size places bound).countBelow hplaces
  generalize countBelow places bound 0 places.size = k at h
  have hbefore : (places.toList.take k).filter (bound ≤ ·) = [] := by
    refine List.filter_eq_nil_iff.mpr fun p hp ↦ ?_
    obtain ⟨i, hi⟩ := List.mem_iff_getElem?.mp hp
    rw [List.getElem?_take] at hi
    split_ifs at hi with hik
    simpa using h.below i p (by simpa using hi) hik
  have hbehind : (places.toList.drop k).filter (bound ≤ ·) = places.toList.drop k := by
    refine List.filter_eq_self.mpr fun p hp ↦ ?_
    obtain ⟨i, hi⟩ := List.mem_iff_getElem?.mp hp
    rw [List.getElem?_drop] at hi
    simpa using h.above (k + i) p (by simpa using hi) (Nat.le_add_right k i)
  conv_rhs => rw [← List.take_append_drop k places.toList, List.filter_append, hbefore, hbehind,
    List.nil_append]

/-! ## The index -/

theorem toList_significantPlaces (ts : Array Token) : (significantPlaces ts).toList =
    (List.range ts.toList.length).filter ((·.any (!·.isLayout)) ∘ (ts.toList[·]?)) := by
  rw [significantPlaces, Array.toList_filter, Array.toList_range, Array.length_toList]
  refine List.filter_congr fun i _ ↦ ?_
  rw [Function.comp_apply, Array.getElem?_toList]
  cases ts[i]? <;> rfl

theorem increasing_significantPlaces (ts : Array Token) :
    (significantPlaces ts).toList.Pairwise (· < ·) := by
  rw [toList_significantPlaces]
  exact List.pairwise_lt_range.filter _

theorem map_getElem?_range (ts : List Token) (place : Nat) :
    ((List.range ts.length).filter (place ≤ ·)).map (ts[·]?) = (ts.drop place).map some := by
  induction ts using List.reverseRecOn with
  | nil => simp
  | append_singleton ts t ih =>
    have hfront : ((List.range ts.length).filter (place ≤ ·)).map ((ts ++ [t])[·]?) =
        (ts.drop place).map some := by
      rw [← ih]
      refine List.map_congr_left fun i hi ↦ ?_
      exact List.getElem?_append_left (List.mem_range.mp (List.mem_of_mem_filter hi))
    rw [List.length_append, List.length_singleton, List.range_succ, List.filter_append,
      List.map_append, hfront, List.drop_append, List.map_append]
    by_cases hplace : place ≤ ts.length
    · simp [hplace]
    · have hbehind : [t].length ≤ place - ts.length := Nat.sub_pos_of_lt (Nat.not_le.mp hplace)
      simp [hplace, List.drop_eq_nil_of_le hbehind]

/-- At the entries from a place on stand the tokens behind it that are not layout. -/
theorem map_significantPlaces (ts : Array Token) (place : Nat) :
    ((significantPlaces ts).toList.filter (place ≤ ·)).map (ts.toList[·]?) =
      ((ts.toList.drop place).filter (!·.isLayout)).map some := by
  rw [toList_significantPlaces, List.filter_comm, ← List.filter_map,
    map_getElem?_range, List.filter_map]
  rfl

/-! ## Moving -/

/-- The index is that of the tokens, and the stream has not been moved past its end. -/
structure IsIndexed (s : TokenStream) : Prop where
  significant : s.significant = significantPlaces s.tokens
  position : s.position ≤ s.size

theorem isIndexed_of (ts : List Token) : (of ts).IsIndexed := ⟨rfl, Nat.zero_le _⟩

variable {s : TokenStream}

theorem IsIndexed.advance (h : s.IsIndexed) : s.advance.IsIndexed := by
  unfold TokenStream.advance
  split_ifs with hlt
  · exact ⟨h.significant, hlt⟩
  · exact h

theorem IsIndexed.moveTo (h : s.IsIndexed) (place : Nat) : (s.moveTo place).IsIndexed :=
  ⟨h.significant, Nat.min_le_right _ _⟩

theorem IsIndexed.significant?_eq (h : s.IsIndexed) (n : Nat) :
    s.significant? (s.passed + n) = (s.rest.filter (!·.isLayout))[n]? := by
  have hbehind := drop_countBelow (h.significant ▸ increasing_significantPlaces s.tokens) s.position
  have hplaces := congrArg (·[n]?) (map_significantPlaces s.tokens s.position)
  rw [← h.significant, ← hbehind] at hplaces
  simp only [List.getElem?_map, List.getElem?_drop, Array.getElem?_toList] at hplaces
  rw [significant?, passed, rest]
  cases hplace : s.significant[countBelow s.significant s.position 0 s.significant.size + n]? with
  | none =>
    rw [hplace] at hplaces
    exact (Option.map_eq_none_iff.mp hplaces.symm).symm
  | some i =>
    rw [hplace] at hplaces
    obtain ⟨t, ht, hti⟩ := Option.map_eq_some_iff.mp hplaces.symm
    exact hti.symm.trans ht.symm

/-- The tokens that are passed are those in front of the place of the stream. -/
theorem IsIndexed.passed_eq (h : s.IsIndexed) :
    s.passed = ((s.tokens.toList.take s.position).filter (!·.isLayout)).length := by
  have hincreasing := h.significant ▸ increasing_significantPlaces s.tokens
  have hlow := ((splits_zero_size s.significant s.position).countBelow hincreasing).high_le_size
  have hbehind : s.significant.size - s.passed =
      (s.significant.toList.filter (s.position ≤ ·)).length := by
    rw [← drop_countBelow hincreasing s.position, List.length_drop, Array.length_toList, passed]
  have hrest := congrArg List.length (map_significantPlaces s.tokens s.position)
  have hall := congrArg List.length (map_significantPlaces s.tokens 0)
  rw [← h.significant, List.length_map, List.length_map] at hrest hall
  have hsplit := congrArg (fun ts ↦ (ts.filter (!·.isLayout)).length)
    (List.take_append_drop s.position s.tokens.toList)
  simp only [List.filter_append, List.length_append] at hsplit
  simp only [Nat.zero_le, decide_true, List.filter_true,
    Array.length_toList, List.drop_zero] at hall
  have hpassed : s.passed ≤ s.significant.size := hlow
  omega

/-- As long as the sum of the places is a word, looking ahead gives the tokens that are not layout
one by one. -/
theorem IsIndexed.nthSignificant?_eq (h : s.IsIndexed) {n : Nat} (hn : s.passed + n < UInt64.size) :
    s.nthSignificant? n = (s.rest.filter (!·.isLayout))[n]? := by
  have hsum : (UInt64.ofNat s.passed + UInt64.ofNat n).toNat = s.passed + n := by
    rw [← UInt64.ofNat_add]
    exact UInt64.toNat_ofNat_of_lt' hn
  rw [nthSignificant?, hsum, h.significant?_eq]

theorem IsIndexed.onlyLayoutLeft_eq (h : s.IsIndexed) :
    s.onlyLayoutLeft = s.rest.all Token.isLayout := by
  have hnext := h.significant?_eq 0
  rw [Nat.add_zero] at hnext
  rw [onlyLayoutLeft, nextSignificant?, hnext]
  induction s.rest with
  | nil => rfl
  | cons t ts ih =>
    cases ht : t.isLayout with
    | false => simp [ht]
    | true => simpa [ht] using ih

theorem onlyLayoutLeft_eq_all (ts : List Token) : (of ts).onlyLayoutLeft = ts.all Token.isLayout :=
  (isIndexed_of ts).onlyLayoutLeft_eq

inductive Move where
  | advance
  | moveTo (place : Nat)

/-- The place that a move leads to in a stream of `size` tokens. -/
def Move.target (size place : Nat) : Move → Nat
  | advance => min (place + 1) size
  | moveTo target => min target size

def move (s : TokenStream) : Move → TokenStream
  | .advance => s.advance
  | .moveTo place => s.moveTo place

theorem IsIndexed.move (h : s.IsIndexed) : ∀ m : Move, (s.move m).IsIndexed
  | .advance => h.advance
  | .moveTo place => h.moveTo place

theorem tokens_move (s : TokenStream) (m : Move) : (s.move m).tokens = s.tokens := by
  cases m with
  | advance =>
    change s.advance.tokens = s.tokens
    unfold advance
    split_ifs <;> rfl
  | moveTo place => rfl

theorem IsIndexed.position_move (h : s.IsIndexed) (m : Move) :
    (s.move m).position = m.target s.size s.position := by
  cases m with
  | advance =>
    change s.advance.position = min (s.position + 1) s.size
    unfold TokenStream.advance
    split_ifs with hlt
    · exact (Nat.min_eq_left hlt).symm
    · have hend : s.position = s.size := h.position.antisymm (Nat.not_lt.mp hlt)
      rw [hend]
      exact (Nat.min_eq_right (Nat.le_succ _)).symm
  | moveTo place => rfl

/-- What single moves keep holds after any run of them. -/
theorem IsIndexed.foldl_move (h : s.IsIndexed) (moves : List Move) :
    (moves.foldl TokenStream.move s).IsIndexed ∧
      (moves.foldl TokenStream.move s).tokens = s.tokens ∧
      (moves.foldl TokenStream.move s).position = moves.foldl (Move.target s.size) s.position := by
  induction moves generalizing s with
  | nil => exact ⟨h, rfl, rfl⟩
  | cons m moves ih =>
    obtain ⟨hindexed, htokens, hposition⟩ := ih (h.move m)
    have hsize : (s.move m).size = s.size := congrArg Array.size (tokens_move s m)
    rw [hsize, h.position_move] at hposition
    exact ⟨hindexed, htokens.trans (tokens_move s m), hposition⟩

/-- Wherever a stream is moved to, it is at one of its tokens or at their end, and looking ahead
gives the tokens from there on that are not layout, one by one, as long as the number of the token
among all of these is a word. -/
theorem looksAhead (ts : List Token) (moves : List Move) :
    let s := moves.foldl move (of ts)
    s.tokens.toList = ts ∧ s.position = moves.foldl (Move.target ts.length) 0 ∧
      s.position ≤ ts.length ∧
      (∀ n, ((ts.take s.position).filter (!·.isLayout)).length + n < UInt64.size →
        s.nthSignificant? n = ((ts.drop s.position).filter (!·.isLayout))[n]?) ∧
      (s.onlyLayoutLeft = true ↔ ∀ t ∈ ts.drop s.position, t.isLayout = true) := by
  intro s
  obtain ⟨hindexed, htokens, hposition⟩ := (isIndexed_of ts).foldl_move moves
  have hts : s.tokens.toList = ts := congrArg Array.toList htokens
  have hsize : s.size = ts.length := by rw [size, ← Array.length_toList, hts]
  have hrest : s.rest = ts.drop s.position := by rw [rest, hts]
  refine ⟨hts, hposition, hsize ▸ hindexed.position, fun n hn ↦ ?_, ?_⟩
  · rw [← hts, ← hindexed.passed_eq] at hn
    rw [← hrest]
    exact hindexed.nthSignificant?_eq hn
  · rw [← hrest, ← List.all_eq_true]
    exact Bool.eq_iff_iff.mp hindexed.onlyLayoutLeft_eq

end TokenStream

end TransportDeck
