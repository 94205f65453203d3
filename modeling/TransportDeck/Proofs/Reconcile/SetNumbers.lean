import TransportDeck.Proofs.Reconcile.HeldNumbers
import TransportDeck.Proofs.Reconcile.OwnRuns

/-!
# Lists whose numbers are set

The values of a list of whole numbers, jumps and repeats are set to others.  The new list holds
them, up to open places at the end.
-/

namespace TransportDeck

open Reconcile Lexer

/-- A list of whole numbers, jumps and repeats with gaps between them.  At the end of a record a
comment may be open behind the list. -/
structure FieldList.IsTidy (l : FieldList) (atEnd : Bool) : Prop where
  fields : ∀ f ∈ l.fields, f.IsTidy
  runs : ∀ s, .run s ∈ l.items → s.IsTidy
  ids : ((l.items.filterMap Item.shorthand?).map (·.id)).Nodup
  own : ∀ s, .run s ∈ l.items → s.kind = .copies → ∀ f ∈ s.members, layoutText f.layout ≠ ""
  before : ∀ f, .field f ∈ l.items.dropLast → layoutText f.layout ≠ ""
  tail : Gap atEnd none (layoutText l.tail).toList

variable {f : Field} {l : FieldList} {e d : ListEntry} {es : List ListEntry} {v : Option Value}
  {n : Option Int} {vs : List (Option Value)} {ns : List (Option Int)} {atEnd : Bool}

/-! ## Fields -/

theorem Field.layout_setValue (f : Field) (v : Option Value) :
    (f.setValue v).layout = f.layout ∨ (f.setValue v).layout = some .gap := by
  unfold setValue
  dsimp only
  split_ifs
  · exact .inr rfl
  · exact .inl rfl

theorem Field.IsTidy.kept_int (h : f.IsTidy) (n : Int) :
    f.kept (.int n) = .real (Float.ofInt n) := by
  rw [kept, h.plain, h.kind_eq]
  rfl

theorem Field.IsTidy.value_setValue (h : f.IsTidy) (n : Option Int) :
    (f.setValue (n.map .int)).value = heldValue n := by
  cases n with
  | none => rfl
  | some n => exact congrArg some (h.kept_int n)

theorem Field.IsTidy.setValue (h : f.IsTidy) (n : Option Int) :
    (f.setValue (n.map .int)).IsTidy where
  kind_eq := h.kind_eq
  plain := h.plain
  real := by
    rw [h.value_setValue]
    intro v hv
    obtain ⟨m, -, rfl⟩ := Option.map_eq_some_iff.mp hv
    rfl
  read := h.read
  gap := by
    rcases f.layout_setValue (n.map .int) with hl | hl <;> rw [hl]
    · exact h.gap
    · rintro _ ⟨⟩
      exact Layout.isGap_gap

theorem value_new_real (n : Option Int) : (Field.new (n.map .int) .real).value = heldValue n := by
  cases n <;> rfl

theorem isTidy_new (n : Option Int) : (Field.new (n.map .int) .real).IsTidy where
  kind_eq := rfl
  plain := rfl
  real := by
    rw [value_new_real]
    intro v hv
    obtain ⟨m, -, rfl⟩ := Option.map_eq_some_iff.mp hv
    rfl
  read := .inl ⟨rfl, rfl⟩
  gap := nofun

theorem ListEntry.HasRoom.setValue (h : e.HasRoom) (v : Option Value) :
    ListEntry.HasRoom { e with field := e.field.setValue v } := by
  unfold HasRoom at h ⊢
  rcases e.field.layout_setValue v with hl | hl <;> dsimp only <;> rw [hl]
  · exact h
  · decide

/-! ## Entries -/

namespace FieldList

/-- An entry whose value was set, or a new one. -/
theorem mem_overwrite {kind : ValueKind} (h : d ∈ overwrite kind es vs) :
    (∃ e ∈ es, ∃ v ∈ vs, d = { e with field := e.field.setValue v }) ∨
      ∃ v ∈ vs, d = .new (.new v kind) := by
  fun_induction overwrite kind es vs with
  | case1 => cases h
  | case2 e es v vs ih =>
    rcases List.mem_cons.mp h with rfl | h
    · exact .inl ⟨e, List.mem_cons_self, v, List.mem_cons_self, rfl⟩
    · rcases ih h with ⟨e', he', w, hw, rfl⟩ | ⟨w, hw, rfl⟩
      · exact .inl ⟨e', List.mem_cons_of_mem _ he', w, List.mem_cons_of_mem _ hw, rfl⟩
      · exact .inr ⟨w, List.mem_cons_of_mem _ hw, rfl⟩
  | case3 v vs ih =>
    rcases List.mem_cons.mp h with rfl | h
    · exact .inr ⟨v, List.mem_cons_self, rfl⟩
    · rcases ih h with ⟨_, he, -⟩ | ⟨w, hw, rfl⟩
      · cases he
      · exact .inr ⟨w, List.mem_cons_of_mem _ hw, rfl⟩

theorem pairwise_overwrite {kind : ValueKind} (h : es.Pairwise ListEntry.HasRoomBefore) :
    (overwrite kind es vs).Pairwise ListEntry.HasRoomBefore := by
  fun_induction overwrite kind es vs with
  | case1 => exact .nil
  | case2 e es v vs ih =>
    obtain ⟨he, hes⟩ := List.pairwise_cons.mp h
    refine List.pairwise_cons.mpr ⟨fun d hd hnone hsome ↦ ?_, ih hes⟩
    rcases mem_overwrite hd with ⟨e', he', w, -, rfl⟩ | ⟨w, -, rfl⟩
    · exact (he e' he' hnone hsome).setValue v
    · exact absurd rfl hsome
  | case3 v vs ih =>
    refine List.pairwise_cons.mpr ⟨fun d hd hnone hsome ↦ ?_, ih .nil⟩
    rcases mem_overwrite hd with ⟨_, he, -⟩ | ⟨w, -, rfl⟩
    · cases he
    · exact absurd rfl hsome

theorem values_overwrite (h : ∀ e ∈ es, e.field.IsTidy) (ns : List (Option Int)) :
    (overwrite .real es (ns.map (·.map .int))).map ListEntry.value = ns.map heldValue := by
  have hvalue {e : ListEntry} (he : e.field.IsTidy) : e.value = e.field.value := by
    rw [ListEntry.value, Field.signed, he.plain]
    rfl
  induction ns generalizing es with
  | nil => rw [List.map_nil, overwrite]; rfl
  | cons n ns ih =>
    cases es with
    | nil =>
      rw [List.map_cons, overwrite, List.map_cons, ih h, List.map_cons, hvalue (isTidy_new n),
        ListEntry.new, value_new_real]
    | cons e es =>
      obtain ⟨he, hes⟩ := List.forall_mem_cons.mp h
      rw [List.map_cons, overwrite, List.map_cons, ih hes, List.map_cons,
        hvalue (he.setValue n), he.value_setValue]

theorem field_mem_of_mem_entries (he : e ∈ l.entries) : e.field ∈ l.fields := by
  rw [entries_eq] at he
  obtain ⟨i, hi, he⟩ := List.mem_flatMap.mp he
  refine List.mem_flatMap.mpr ⟨i, hi, ?_⟩
  cases i with
  | field f =>
    rw [List.mem_singleton.mp he]
    exact List.mem_singleton_self f
  | run s =>
    rw [Item.fields, ← s.map_field_ownEntries]
    exact List.mem_map_of_mem he

/-- An entry of a run is one of its members. -/
theorem exists_run_of_mem_entries {id : Nat} (he : e ∈ l.entries) (hid : e.runId? = some id) :
    ∃ s, .run s ∈ l.items ∧ s.id = id ∧ e.field ∈ s.members := by
  rw [entries_eq] at he
  obtain ⟨i, hi, he⟩ := List.mem_flatMap.mp he
  cases i with
  | field f =>
    rw [List.mem_singleton.mp he] at hid
    cases hid
  | run s =>
    refine ⟨s, hi, Option.some.inj ((Shorthand.runId?_of_mem_ownEntries he).symm.trans hid), ?_⟩
    rw [← s.map_field_ownEntries]
    exact List.mem_map_of_mem he

namespace IsTidy

/-- Only the last item may be a plain field without room. -/
theorem pairwise_entries (h : l.IsTidy atEnd) : l.entries.Pairwise ListEntry.HasRoomBefore := by
  have hown : ∀ i : Item, i.entries.Pairwise ListEntry.HasRoomBefore := fun i ↦ by
    cases i with
    | field f => exact List.pairwise_singleton _ _
    | run s =>
      refine List.pairwise_of_forall_mem_list fun a ha _ _ hnone ↦ ?_
      exact absurd hnone (ListEntry.origin_ne_none (Shorthand.runId?_of_mem_ownEntries ha))
  have hroom : ∀ i ∈ l.items.dropLast, ∀ e ∈ i.entries, ∀ d : ListEntry, e.HasRoomBefore d := by
    intro i hi e he d hnone _
    cases i with
    | field f =>
      rw [List.mem_singleton.mp he]
      exact h.before f hi
    | run s => exact absurd hnone (ListEntry.origin_ne_none (Shorthand.runId?_of_mem_ownEntries he))
  rw [entries_eq, List.pairwise_flatMap]
  refine ⟨fun i _ ↦ hown i, ?_⟩
  rcases List.eq_nil_or_concat l.items with hnil | ⟨items, i, hitems⟩
  · rw [hnil]
    exact .nil
  · rw [hitems, List.concat_eq_append, List.dropLast_concat] at hroom
    rw [hitems, List.concat_eq_append, List.pairwise_append]
    refine ⟨?_, List.pairwise_singleton _ _, fun j hj _ _ a ha b _ ↦ hroom j hj a ha b⟩
    exact List.pairwise_of_forall_mem_list fun j hj _ _ a ha b _ ↦ hroom j hj a ha b

theorem eq_of_id (h : l.IsTidy atEnd) {r s : Shorthand} (hr : .run r ∈ l.items)
    (hs : .run s ∈ l.items) (hid : r.id = s.id) : r = s :=
  List.inj_on_of_nodup_map h.ids (List.mem_filterMap.mpr ⟨_, hr, rfl⟩)
    (List.mem_filterMap.mpr ⟨_, hs, rfl⟩) hid

theorem kind_last (h : l.IsTidy atEnd) : (l.last?.map (·.kind)).getD .real = .real := by
  cases hl : l.last? with
  | none => rfl
  | some f => exact (h.fields f (List.mem_of_getLast? hl)).kind_eq

/-- With other values the list is cut into segments that can be written. -/
theorem neat_overwrite (h : l.IsTidy atEnd) (ns : List (Option Int)) :
    Neat (l.items.filterMap Item.shorthand?)
      (.free (overwrite .real l.entries (ns.map (·.map .int)))) := by
  refine .of_free (fun d hd ↦ ?_)
    (pairwise_overwrite h.pairwise_entries) fun s hs hkind d hd hid ↦ ?_
  · rcases mem_overwrite hd with ⟨e, he, v, hv, rfl⟩ | ⟨v, hv, rfl⟩
    · obtain ⟨n, -, rfl⟩ := List.mem_map.mp hv
      exact (h.fields _ (field_mem_of_mem_entries he)).setValue n
    · obtain ⟨n, -, rfl⟩ := List.mem_map.mp hv
      exact isTidy_new n
  · rcases mem_overwrite hd with ⟨e, he, v, -, rfl⟩ | ⟨v, -, rfl⟩
    · obtain ⟨r, hr, hrid, hmem⟩ := exists_run_of_mem_entries he hid
      obtain ⟨i, hi, hs⟩ := List.mem_filterMap.mp hs
      cases i with
      | field f => cases hs
      | run s' =>
        obtain rfl := Option.some.inj hs
        obtain rfl := h.eq_of_id hr hi hrid
        exact ListEntry.HasRoom.setValue (e := e) (h.own r hr hkind _ hmem) v
    · cases hid

theorem neat_cut (h : l.IsTidy atEnd) (t : Tolerance) (ns : List (Option Int)) :
    ∀ g ∈ l.cut t (overwrite .real l.entries (ns.map (·.map .int))), Neat [] g := by
  refine neat_claimAllJumps l.nextId
    (neat_foldl (fun s hs ↦ ?_) h.ids (List.forall_mem_singleton.mpr (h.neat_overwrite ns)))
  obtain ⟨i, hi, hs⟩ := List.mem_filterMap.mp hs
  cases i with
  | field f => cases hs
  | run s' =>
    obtain rfl := Option.some.inj hs
    exact h.runs _ hi

end IsTidy

/-! ## The new list -/

theorem holding_mapLastItem {before : Option Int} (h : Holding before l.items ns) :
    Holding before (l.mapLastItem clearBlankTrailing).items ns := by
  unfold mapLastItem
  split
  · next i hi =>
    rw [← List.dropLast_append_getLast? i hi] at h
    exact h.clearBlankTrailing
  · exact h

theorem isTight_of_mapLastItem (h : ∀ i ∈ (l.mapLastItem clearBlankTrailing).items, i.IsTight) :
    ∀ i ∈ l.items, i.IsTight := by
  unfold mapLastItem at h
  split at h
  · next i hi =>
    rw [← List.dropLast_append_getLast? i hi]
    obtain ⟨hinit, hlast⟩ := List.forall_mem_append.mp h
    refine List.forall_mem_append.mpr ⟨hinit, List.forall_mem_singleton.mpr ?_⟩
    have hi := List.forall_mem_singleton.mp hlast
    rcases clearBlankTrailing_cases i with heq | heq <;> rw [heq] at hi
    · exact hi
    · exact (i.isTight_setTrailing _).mp hi
  · exact h

/-- The entries are cut into segments, and the list is made of their items. -/
theorem reconcile_of_ne_nil {edited : List ListEntry} (h : edited ≠ []) (t : Tolerance)
    (l : FieldList) : ∃ next, l.reconcile t edited = mapLastItem clearBlankTrailing
      ⟨itemsOf none (dropImplied (l.cut t edited)), l.tail, next, true⟩ := by
  unfold reconcile
  rw [if_neg (by simpa using h)]
  exact ⟨_, rfl⟩

theorem mapLastItem_fields (g : Item → Item) (l : FieldList) :
    (l.mapLastItem g).tail = l.tail ∧ (l.mapLastItem g).rebuilt = l.rebuilt := by
  unfold mapLastItem
  split <;> exact ⟨rfl, rfl⟩

/-- The layout behind a list stays, and a gap goes between its items once it is built anew. -/
theorem reconcile_fields (t : Tolerance) (edited : List ListEntry) (l : FieldList) :
    (l.reconcile t edited).tail = l.tail ∧
      ((l.reconcile t edited).items ≠ [] → (l.reconcile t edited).rebuilt = true) := by
  by_cases h : edited = []
  · rw [h]
    exact ⟨rfl, absurd rfl⟩
  · obtain ⟨next, heq⟩ := reconcile_of_ne_nil h t l
    rw [heq]
    exact ⟨(mapLastItem_fields _ _).1, fun _ ↦ (mapLastItem_fields _ _).2⟩

theorem IsTidy.setValues_eq (h : l.IsTidy atEnd) (t : Tolerance) (vs : List (Option Value)) :
    l.setValues t vs = l.reconcile t (overwrite .real l.entries vs) := by
  rw [setValues, h.kind_last]

/-- The new list holds the numbers that were set, up to open places at the end. -/
theorem IsTidy.exists_holding (h : l.IsTidy atEnd) (hsmall : ∀ v ∈ ns, ∀ n ∈ v, n.natAbs < 10 ^ 5)
    (htight : ∀ i ∈ (l.setValues .standard (ns.map (·.map .int))).items, i.IsTight) : ∃ ms k,
      Holding none (l.setValues .standard (ns.map (·.map .int))).items ms ∧
      ms ++ List.replicate k none = ns := by
  have htidy : ∀ e ∈ l.entries, e.field.IsTidy :=
    fun e he ↦ h.fields _ (field_mem_of_mem_entries he)
  have hset := values_overwrite htidy ns
  have hneat := h.neat_cut .standard ns
  rw [h.setValues_eq] at htight ⊢
  set edited := overwrite .real l.entries (ns.map (·.map .int))
  by_cases hempty : edited = []
  · rw [hempty] at hset ⊢
    obtain rfl : ns = [] := by simpa using hset.symm
    exact ⟨[], 0, .nil, rfl⟩
  · obtain ⟨next, heq⟩ := reconcile_of_ne_nil hempty .standard l
    obtain ⟨implied, happend, himplied⟩ := dropImplied_append (l.cut .standard edited)
    obtain ⟨hsettled, -⟩ := l.settled_cut .standard hempty
    have hlinked := l.linked_cut .standard edited
    have hvalues := l.valuesOf_cut .standard edited
    rw [happend] at hlinked hsettled hneat
    rw [happend, valuesOf_append, hset] at hvalues
    obtain ⟨ms, rest, rfl, hms, hrest⟩ := List.map_eq_append_iff.mp hvalues.symm
    -- Only open places are dropped at the end.
    have hopen : ∀ v ∈ rest, v = none := fun v hv ↦ by
      have hmem : heldValue v ∈ valuesOf implied := hrest ▸ List.mem_map_of_mem hv
      obtain ⟨e, he, hvalue⟩ := List.mem_map.mp hmem
      obtain ⟨g, hg, heg⟩ := List.mem_flatMap.mp he
      obtain ⟨s, c, es, rfl, hs⟩ := himplied g hg
      have hnone :=
        (hsettled _ (List.mem_append_right _ hg)).eq_none_of_synthesized hs
          (List.mem_map_of_mem heg)
      exact heldValue_eq_none_iff.mp (hvalue.symm.trans hnone)
    rw [heq] at htight ⊢
    refine ⟨ms, rest.length, holding_mapLastItem ?_, by rw [← List.eq_replicate_of_mem hopen]⟩
    exact holding_itemsOf (fun g hg ↦ hsettled g (List.mem_append_left _ hg))
      (fun g hg ↦ hneat g (List.mem_append_left _ hg)) hlinked.of_append nofun hms.symm
      (fun v hv ↦ hsmall v (List.mem_append_left _ hv)) nofun fun s hs ↦
        isTight_of_mapLastItem htight _ hs

/-- The text of the new list is that of items that stand for the numbers.  Something has to be
behind the list if it is not the end of the record. -/
theorem IsTidy.exists_strung (h : l.IsTidy atEnd) (hroom : atEnd = false → layoutText l.tail ≠ "")
    (hsmall : ∀ v ∈ ns, ∀ n ∈ v, n.natAbs < 10 ^ 5) (hlength : ns.length ≤ Limits.shorthandCount)
    (htight : ∀ i ∈ (l.setValues .standard (ns.map (·.map .int))).items, i.IsTight) : ∃ is ms k,
      Strung atEnd is ((l.setValues .standard (ns.map (·.map .int))).render .standard).text.toList ∧
      Stands none is ms ∧
        ms ++ List.replicate k none = ns := by
  obtain ⟨ms, k, hholding, heq⟩ := h.exists_holding hsmall htight
  have hms : ms.length ≤ ns.length := by simp [← heq]
  obtain ⟨iss, hparts, hstands⟩ := hholding.exists_parts (hms.trans hlength)
  obtain ⟨htail, hrebuilt⟩ :=
    l.reconcile_fields .standard (overwrite .real l.entries (ns.map (·.map .int)))
  rw [← h.setValues_eq] at htail hrebuilt
  have hgap := h.tail
  rw [← htail] at hgap hroom
  obtain ⟨cs, htext, hstrung, -⟩ :=
    FieldList.exists_strung hparts (fun hne ↦ hrebuilt (by simpa using hne))
      hgap (fun hend ↦ by simpa using hroom hend) .empty
  refine ⟨iss.flatten, ms, k, ?_, hstands, heq⟩
  rw [render, Rendered.text_append, Rendered.text_ofText, htext]
  exact hstrung

end FieldList

end TransportDeck
