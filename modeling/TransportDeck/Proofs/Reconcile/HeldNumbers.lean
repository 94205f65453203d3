import TransportDeck.Proofs.Reconcile.NeatSegments

/-!
# Numbers that are held

The segments of a list whose values are whole numbers become items that hold these numbers in their
order.
-/

namespace TransportDeck

open Shorthand

/-- The value that a number is kept as; an open place has none. -/
def heldValue (v : Option Int) : Option Value := v.map fun n ↦ .real (Float.ofInt n)

variable {v w : Option Int} {vs ws : List (Option Int)}

theorem heldValue_eq_none_iff : heldValue v = none ↔ v = none := Option.map_eq_none_iff

/-- Numbers that are not large are the same if the tolerance takes them for it. -/
theorem eq_of_within (hv : ∀ n ∈ v, n.natAbs < 10 ^ 5) (hw : ∀ n ∈ w, n.natAbs < 10 ^ 5)
    (h : Within .standard (heldValue v) (heldValue w)) : ∃ n, v = some n ∧ w = some n := by
  obtain ⟨x, y, hx, hy, hclose⟩ := h
  obtain ⟨n, rfl, rfl⟩ := Option.map_eq_some_iff.mp hx
  obtain ⟨m, rfl, rfl⟩ := Option.map_eq_some_iff.mp hy
  have hn := hv n rfl
  have hm := hw m rfl
  have hheld {k : Int} (hk : k.natAbs < 10 ^ 5) : HoldsInt (Float.ofInt k) k :=
    holdsInt_ofInt (hk.trans (by decide))
  have heq : n = m :=
    (hheld hn).eq_of_close_of_lt (hheld hm) (hn.trans (by decide)) (hm.trans (by decide)) hclose
  exact ⟨n, rfl, by rw [heq]⟩

theorem Field.IsTidy.value_eq {f : Field} (h : f.IsTidy) {n : Int}
    (hsigned : f.signed = some (.real (Float.ofInt n))) :
    f.value = some (.real (Float.ofInt n)) := by
  rw [signed, h.plain] at hsigned
  exact hsigned

theorem Shorthand.IsTidy.rebuilt {s : Shorthand} (h : s.IsTidy) (members : List Field)
    (anchor : Option Field) : (s.rebuilt members anchor).IsTidy :=
  ⟨h.counts, h.letter, h.count, h.gap⟩

namespace Reconcile

variable {es : List ListEntry} {items : List Item} {before : Option Int}

/-- The last of the numbers, or the one before them. -/
def lastNumber (before : Option Int) (vs : List (Option Int)) : Option Int :=
  vs.getLast?.getD before

theorem lastValue_heldValue (before : Option Int) (vs : List (Option Int)) :
    lastValue (heldValue before) (vs.map heldValue) = heldValue (lastNumber before vs) := by
  rw [lastValue, List.getLast?_map, lastNumber]
  cases vs.getLast? <;> rfl

theorem lastNumber_cons (before v : Option Int) (vs : List (Option Int)) :
    lastNumber before (v :: vs) = lastNumber v vs := by
  rw [lastNumber, List.getLast?_cons]
  rfl

theorem lastNumber_replicate (before v : Option Int) {k : Nat} (hk : k ≠ 0) :
    lastNumber before (List.replicate k v) = v := by
  rw [lastNumber, List.getLast?_replicate, if_neg hk]
  rfl

/-- Plain fields hold their numbers. -/
theorem holding_fields (htidy : ∀ e ∈ es, e.field.IsTidy)
    (hvalues : es.map ListEntry.value = vs.map heldValue) (hsome : ∀ e ∈ es, e.value ≠ none)
    (hsmall : ∀ v ∈ vs, ∀ n ∈ v, n.natAbs < 10 ^ 5) (h : Holding (lastNumber before vs) items ws) :
    Holding before (es.map (fun e ↦ .field e.field) ++ items) (vs ++ ws) := by
  induction es generalizing vs before with
  | nil =>
    obtain rfl : vs = [] := by simpa using hvalues.symm
    exact h
  | cons e es ih =>
    cases vs with
    | nil => cases hvalues
    | cons v vs =>
      obtain ⟨hv, hrest⟩ := List.cons.inj hvalues
      obtain ⟨he, htidy⟩ := List.forall_mem_cons.mp htidy
      obtain ⟨hne, hsome⟩ := List.forall_mem_cons.mp hsome
      obtain ⟨hsmallv, hrestSmall⟩ := List.forall_mem_cons.mp hsmall
      obtain ⟨n, rfl⟩ := Option.ne_none_iff_exists'.mp (mt heldValue_eq_none_iff.mpr (hv ▸ hne))
      rw [lastNumber_cons] at h
      exact .field he (he.value_eq hv) (hsmallv n rfl) (ih htidy hrest hsome hrestSmall h)

variable {s : Shorthand} {c : Bool} {anchor : Option Field}

/-- The values of a jump are open places. -/
theorem eq_replicate_of_jump (hfits : s.Fits .standard c (es.map ListEntry.value))
    (hkind : s.kind = .jump) (hvalues : es.map ListEntry.value = vs.map heldValue) :
    vs = List.replicate es.length none := by
  refine List.eq_replicate_iff.mpr
    ⟨by simpa using (congrArg List.length hvalues).symm, fun v hv ↦ ?_⟩
  have hmem : heldValue v ∈ es.map ListEntry.value := hvalues ▸ List.mem_map_of_mem hv
  exact heldValue_eq_none_iff.mp ((hfits.open_iff _ hmem).mpr hkind)

/-- The values of a repeat are one number. -/
theorem exists_replicate_of_copies (hfits : s.Fits .standard c (es.map ListEntry.value))
    (hkind : s.kind = .copies) (hvalues : es.map ListEntry.value = vs.map heldValue) (hne : es ≠ [])
    (hsmall : ∀ v ∈ vs, ∀ n ∈ v, n.natAbs < 10 ^ 5) : ∃ n :
    Int, vs = List.replicate es.length (some n) ∧
      n.natAbs < 10 ^ 5 := by
  have hlength : vs.length = es.length := by simpa using (congrArg List.length hvalues).symm
  have hchain := hfits.copies hkind
  rw [hvalues, List.isChain_map] at hchain
  have heq : vs.IsChain (· = ·) := by
    refine hchain.imp_of_mem_imp fun v w hv hw hwithin ↦ ?_
    obtain ⟨n, rfl, rfl⟩ := eq_of_within (hsmall v hv) (hsmall w hw) hwithin
    rfl
  obtain ⟨v, vs, rfl⟩ :=
    List.exists_cons_of_ne_nil (l := vs)
      (by rintro rfl; exact hne (List.eq_nil_of_length_eq_zero hlength.symm))
  have hmem : heldValue v ∈ es.map ListEntry.value := hvalues ▸ List.mem_cons_self
  obtain ⟨n, rfl⟩ := Option.ne_none_iff_exists'.mp fun hnone ↦
    absurd ((hfits.open_iff _ hmem).mp (heldValue_eq_none_iff.mpr hnone)) (by rw [hkind]; decide)
  refine ⟨n, ?_, hsmall _ List.mem_cons_self n rfl⟩
  rw [← hlength, List.length_cons, List.replicate_succ,
    ← List.isChain_cons_eq_iff_eq_replicate.mp heq]

/-- A run that has claimed its numbers holds them. -/
theorem holding_run (hs : s.IsTidy) (htidy : ∀ e ∈ es, e.field.IsTidy) (hne : es ≠ [])
    (hroom : s.kind = .copies → c = false → ∀ e ∈ es.head?, e.HasRoom)
    (hfits : s.Fits .standard c (es.map ListEntry.value))
    (hvalues : es.map ListEntry.value = vs.map heldValue)
    (hsmall : ∀ v ∈ vs, ∀ n ∈ v, n.natAbs < 10 ^ 5) (hbefore : ∀ n ∈ before, n.natAbs < 10 ^ 5)
    (hlinked : c = true → s.kind = .copies →
      anchor.isSome = true ∧ Within .standard (heldValue before)
      (es.map ListEntry.value).head?.join)
    (htight : (s.rebuilt (es.map (·.field)) (if c then anchor else none)).IsTight
      (s.rebuilt (es.map (·.field)) (if c then anchor else none)).places)
    (h : Holding (lastNumber before vs) items ws) :
    Holding before (.run (s.rebuilt (es.map (·.field)) (if c then anchor else none)) :: items)
      (vs ++ ws) := by
  set r := s.rebuilt (es.map (·.field)) (if c then anchor else none) with hr
  have hrun : r.IsTidy := hs.rebuilt _ _
  have hlength : r.members.length = es.length := List.length_map _
  have hpositive : es.length ≠ 0 := by simpa using hne
  rcases hs.counts with hkind | hkind
  · obtain rfl := eq_replicate_of_jump hfits hkind hvalues
    rw [lastNumber_replicate before none hpositive] at h
    rw [← hlength]
    exact .jump hrun hkind (by simpa [hr, Shorthand.rebuilt] using hne) htight h
  · obtain ⟨n, rfl, hn⟩ := exists_replicate_of_copies hfits hkind hvalues hne hsmall
    rw [lastNumber_replicate before (some n) hpositive] at h
    obtain ⟨e, es, rfl⟩ := List.exists_cons_of_ne_nil hne
    obtain ⟨hvalue, -⟩ := List.cons.inj hvalues
    cases c with
    | true =>
      obtain ⟨hanchor, hwithin⟩ := hlinked rfl hkind
      have hhead : ((e :: es).map ListEntry.value).head?.join = heldValue (some n) := hvalue
      rw [hhead] at hwithin
      obtain ⟨m, rfl, hm⟩ := eq_of_within hbefore (by rintro _ ⟨⟩; exact hn) hwithin
      obtain rfl := Option.some.inj hm
      have hchained : r.chained = true := by simp [hr, Shorthand.rebuilt, hanchor, hkind]
      rw [← hlength]
      exact .chained hrun hkind hchained htight h
    | false =>
      obtain ⟨he, -⟩ := List.forall_mem_cons.mp htidy
      have hall : Holding before (.run r :: items)
          (some n :: (List.replicate (es.map (·.field)).length (some n) ++ ws)) :=
        .copies hrun hkind rfl rfl he (he.value_eq hvalue) hn (hroom hkind rfl e rfl) htight h
      rwa [List.length_map] at hall

/-- The items of settled segments hold their numbers. -/
theorem holding_itemsOf {segments : List Segment} (hsettled : ∀ g ∈ segments, Settled .standard g)
    (hneat : ∀ g ∈ segments, Neat [] g) (hlinked : Linked .standard (heldValue before) segments)
    (hanchor : before.isSome = true → anchor.isSome = true)
    (hvalues : valuesOf segments = vs.map heldValue) (hsmall : ∀ v ∈ vs, ∀ n ∈ v, n.natAbs < 10 ^ 5)
    (hbefore : ∀ n ∈ before, n.natAbs < 10 ^ 5)
    (htight : ∀ s, .run s ∈ itemsOf anchor segments → s.IsTight s.places) :
    Holding before (itemsOf anchor segments) vs := by
  induction segments generalizing before anchor vs with
  | nil =>
    obtain rfl : vs = [] := by simpa [valuesOf] using hvalues.symm
    exact .nil
  | cons g rest ih =>
    obtain ⟨hg, hsettled⟩ := List.forall_mem_cons.mp hsettled
    obtain ⟨hneatg, hneat⟩ := List.forall_mem_cons.mp hneat
    rw [valuesOf_cons] at hvalues
    obtain ⟨vs, ws, rfl, hvs, hws⟩ := List.map_eq_append_iff.mp hvalues.symm
    obtain ⟨hsmallHere, hsmallRest⟩ := List.forall_mem_append.mp hsmall
    obtain ⟨hlinkedHere, hlinkedRest⟩ := hlinked
    have hlast : ((g.entries.getLast?).map (·.field)).isSome = true := by
      rw [Option.isSome_map, List.getLast?_isSome]
      exact hg.1.nonempty
    have hlastSmall : ∀ n ∈ lastNumber before vs, n.natAbs < 10 ^ 5 := by
      unfold lastNumber
      cases hv : vs.getLast? with
      | none => exact hbefore
      | some v => exact hsmallHere v (List.mem_of_getLast? hv)
    rw [← hvs, lastValue_heldValue] at hlinkedRest
    have hrest (h : ∀ s, .run s ∈ itemsOf ((g.entries.getLast?).map (·.field)) rest →
      s.IsTight s.places) :
        Holding (lastNumber before vs) (itemsOf ((g.entries.getLast?).map (·.field)) rest) ws :=
      ih hsettled hneat hlinkedRest (fun _ ↦ hlast) hws.symm hsmallRest hlastSmall h
    cases g with
    | free es =>
      refine holding_fields hneatg.tidy hvs.symm (hg.2 es rfl)
        hsmallHere (hrest fun s hs ↦ htight s ?_)
      exact List.mem_append_right _ hs
    | claimed s c es =>
      obtain ⟨hs, hroom⟩ := hneatg.claimed s c es rfl
      refine holding_run hs hneatg.tidy hg.1.nonempty hroom (hg.1.fits s c es rfl)
        hvs.symm hsmallHere hbefore (fun hc hkind ↦ ?_) (htight _ List.mem_cons_self)
          (hrest fun s hs ↦ htight s (List.mem_cons_of_mem _ hs))
      have hwithin := hlinkedHere s es (hc ▸ rfl) hkind
      obtain ⟨x, -, hx, -⟩ := hwithin
      obtain ⟨n, rfl, -⟩ := Option.map_eq_some_iff.mp hx
      exact ⟨hanchor rfl, hlinkedHere s es (hc ▸ rfl) hkind⟩

/-! ## Blanks at the end -/

theorem clearBlankTrailing_cases (i : Item) :
    clearBlankTrailing i = i ∨ clearBlankTrailing i = i.setTrailing (some .empty) := by
  unfold clearBlankTrailing
  split
  · split_ifs
    · exact .inr rfl
    · exact .inl rfl
  · exact .inl rfl

end Reconcile

theorem Shorthand.setTrailing_of_counts {s : Shorthand} (h : s.kind = .jump ∨ s.kind = .copies)
    (l : Option Layout) : s.setTrailing l = { s with endLayout := l } := by
  rcases h with hkind | hkind <;> simp [setTrailing, hkind, ShorthandKind.isInterpolation]

theorem Shorthand.IsTidy.cleared {s : Shorthand}
    (h : s.IsTidy) : { s with endLayout := some .empty }.IsTidy where
  counts := h.counts
  letter := h.letter
  count := h.count
  gap := by
    rintro _ ⟨⟩
    exact Layout.isGap_empty

namespace Item

/-- No count of the item is padded. -/
def IsTight : Item → Prop
  | field _ => True
  | run s => s.IsTight s.places

instance : (i : Item) → Decidable i.IsTight
  | field _ => inferInstanceAs (Decidable True)
  | run s => inferInstanceAs (Decidable (s.IsTight s.places))

theorem isTight_setTrailing (i : Item) (l : Option Layout) :
    (i.setTrailing l).IsTight ↔ i.IsTight := by
  cases i with
  | field f => rfl
  | run s =>
    have hlength := congrArg List.length (s.values_setTrailing l)
    simp only [Shorthand.values, List.length_map] at hlength
    change (s.setTrailing l).IsTight (s.setTrailing l).places ↔ s.IsTight s.places
    have hplaces : (s.setTrailing l).places = s.places := by
      rw [Shorthand.places, Shorthand.places, hlength]
      unfold Shorthand.setTrailing
      split_ifs <;> rfl
    rw [hplaces]
    unfold Shorthand.setTrailing
    split_ifs <;> rfl

end Item

namespace Holding

open Reconcile

variable {before : Option Int} {items : List Item} {i : Item} {ns : List (Option Int)}

/-- The layout behind the last item may go. -/
theorem setTrailing_empty (h : Holding before (items ++ [i]) ns) :
    Holding before (items ++ [i.setTrailing (some .empty)]) ns := by
  induction items generalizing before ns with
  | nil =>
    rw [List.nil_append] at h ⊢
    cases h with
    | field tidy value small rest =>
      exact .field (tidy.setLayout Layout.isGap_empty) value small rest
    | jump tidy kind nonempty tight rest =>
      rw [Item.setTrailing, setTrailing_of_counts tidy.counts]
      exact .jump tidy.cleared kind nonempty tight rest
    | chained tidy kind chained tight rest =>
      rw [Item.setTrailing, setTrailing_of_counts tidy.counts]
      exact .chained tidy.cleared kind chained tight rest
    | copies tidy kind chained members lead value small room tight rest =>
      rw [Item.setTrailing, setTrailing_of_counts tidy.counts]
      exact .copies tidy.cleared kind chained members lead value small room tight rest
  | cons j items ih =>
    rw [List.cons_append] at h ⊢
    cases h with
    | field tidy value small rest => exact .field tidy value small (ih rest)
    | jump tidy kind nonempty tight rest => exact .jump tidy kind nonempty tight (ih rest)
    | chained tidy kind chained tight rest => exact .chained tidy kind chained tight (ih rest)
    | copies tidy kind chained members lead value small room tight rest =>
      exact .copies tidy kind chained members lead value small room tight (ih rest)

theorem clearBlankTrailing (h : Holding before (items ++ [i]) ns) :
    Holding before (items ++ [Reconcile.clearBlankTrailing i]) ns := by
  rcases clearBlankTrailing_cases i with heq | heq <;> rw [heq]
  · exact h
  · exact h.setTrailing_empty

end Holding

end TransportDeck
