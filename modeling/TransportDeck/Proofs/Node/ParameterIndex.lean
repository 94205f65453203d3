import Mathlib.Tactic
import TransportDeck.Node.Parameters

/-!
# The index of parameters

Parameters are found under the keys they were inserted with.  The index always agrees with these
names, but an edit of a classifier may give a parameter another key; the index mirrors the keys as
long as no parameter has a key other than its name.
-/

namespace TransportDeck

namespace Parameters

/-! ## Places -/

/-- A key is found in the index if and only if it is one of the keys. -/
theorem isSome_lookup_zipIdx (keys : List String) (n : Nat) (key : String) :
    ((keys.zipIdx n).lookup key).isSome = decide (key ∈ keys) := by
  induction keys generalizing n with
  | nil => rfl
  | cons k keys ih =>
    rw [List.zipIdx_cons, List.lookup_cons]
    by_cases hk : key = k
    · simp [hk]
    · have hne : (key == k) = false := by simpa using hk
      rw [hne]
      simp [ih, hk]

/-- The place that is found for a key holds that key. -/
theorem getElem?_of_lookup_zipIdx {keys : List String} {n i : Nat} {key : String}
    (h : (keys.zipIdx n).lookup key = some i) : n ≤ i ∧ keys[i - n]? = some key := by
  induction keys generalizing n with
  | nil => cases h
  | cons k keys ih =>
    rw [List.zipIdx_cons, List.lookup_cons] at h
    split at h
    · next heq =>
      obtain rfl := Option.some.inj h
      simp [(beq_iff_eq.mp heq).symm]
    · obtain ⟨hle, hkey⟩ := ih h
      refine ⟨Nat.le_of_succ_le hle, ?_⟩
      rwa [show i - n = i - (n + 1) + 1 by omega, List.getElem?_cons_succ]

/-- The place of a key is the only one where it stands. -/
theorem lookup_zipIdx_eq_some_iff {keys : List String} (h : keys.Nodup) {key : String} {i : Nat} :
    keys.zipIdx.lookup key = some i ↔ keys[i]? = some key := by
  refine ⟨fun hi ↦ (getElem?_of_lookup_zipIdx hi).2, fun hkey ↦ ?_⟩
  have hthere : (keys.zipIdx.lookup key).isSome = true := by
    rw [isSome_lookup_zipIdx]
    exact decide_eq_true (List.mem_of_getElem? hkey)
  obtain ⟨j, hj⟩ := Option.isSome_iff_exists.mp hthere
  have hkey' : keys[j]? = some key := (getElem?_of_lookup_zipIdx hj).2
  obtain ⟨hlt, -⟩ := List.getElem?_eq_some_iff.mp hkey
  rw [hj, (List.getElem?_inj hlt h).mp (hkey.trans hkey'.symm)]

/-- Behind the place that goes, every key moves down by one. -/
theorem dropPlace_behind {keys : List String} {key : String} (h : key ∉ keys) (n : Nat) :
    dropPlace key n (keys.zipIdx (n + 1)) = keys.zipIdx n := by
  have hkeep : (keys.zipIdx (n + 1)).filter (·.1 != key) = keys.zipIdx (n + 1) := by
    refine List.filter_eq_self.mpr fun e he ↦ bne_iff_ne.mpr ?_
    rintro rfl
    exact h (List.fst_mem_of_mem_zipIdx he)
  rw [dropPlace, hkeep, List.zipIdx_succ, List.map_map]
  refine (List.map_congr_left fun e he ↦ ?_).trans (List.map_id _)
  have hle : n ≤ e.2 := List.le_snd_of_mem_zipIdx he
  have hlt : e.2 + 1 > n := Nat.lt_succ_of_le hle
  simp [hlt]

/-- Without the key at a place, the keys behind it move down by one. -/
theorem dropPlace_zipIdx {keys : List String} (h : keys.Nodup) {key : String} {i n : Nat}
    (hkey : keys[i]? = some key) :
    dropPlace key (n + i) (keys.zipIdx n) = (keys.eraseIdx i).zipIdx n := by
  induction keys generalizing i n with
  | nil => cases hkey
  | cons k keys ih =>
    obtain ⟨hk, hkeys⟩ := List.nodup_cons.mp h
    rw [List.zipIdx_cons]
    cases i with
    | zero =>
      obtain rfl : k = key := Option.some.inj hkey
      have hhead : dropPlace k n ((k, n) :: keys.zipIdx (n + 1)) =
          dropPlace k n (keys.zipIdx (n + 1)) := by
        simp [dropPlace]
      exact hhead.trans (dropPlace_behind hk n)
    | succ i =>
      have hne : k ≠ key := by
        rintro rfl
        exact hk (List.mem_of_getElem? hkey)
      have hhead : dropPlace key (n + (i + 1)) ((k, n) :: keys.zipIdx (n + 1)) =
          (k, n) :: dropPlace key (n + 1 + i) (keys.zipIdx (n + 1)) := by
        simp [dropPlace, hne, Nat.add_assoc, Nat.add_comm 1 i]
      rw [hhead, ih hkeys hkey, List.eraseIdx_cons_succ, List.zipIdx_cons]

/-! ## Entries -/

/-- A parameter and the key it was inserted with. -/
structure Entry where
  name : String
  parameter : Parameter

/-- The parameter has the key it was inserted with, and a look-up leaves that key as it is. -/
def Entry.Agrees (e : Entry) : Prop := e.parameter.key = e.name ∧ Classifier.keyOf e.name = e.name

def names (es : List Entry) : List String := es.map Entry.name

/-- The parameters of these entries, each found under its name. -/
def ofEntries (es : List Entry) : Parameters := ⟨es.map Entry.parameter, (names es).zipIdx⟩

/-- Makes room behind the last parameter. -/
def closeLast : List Entry → List Entry
  | [] => []
  | [e] => [{ e with parameter := e.parameter.closed }]
  | e :: es => e :: closeLast es

/-- Closing the last parameter changes no name. -/
theorem names_closeLast (es : List Entry) : names (closeLast es) = names es := by
  fun_induction closeLast es with
  | case1 => rfl
  | case2 => rfl
  | case3 e es _ ih => exact congrArg (e.name :: ·) ih

/-- Closing the last entry closes the last parameter. -/
theorem map_parameter_closeLast (es : List Entry) :
    (closeLast es).map Entry.parameter = mapLast Parameter.closed (es.map Entry.parameter) := by
  fun_induction closeLast es with
  | case1 => rfl
  | case2 => rfl
  | case3 e es hne ih =>
    cases es with
    | nil => exact absurd rfl hne
    | cons e' es => exact congrArg (e.parameter :: ·) ih

section Entries

variable {es : List Entry} {key text : String} {i : Nat}

theorem length_names (es : List Entry) : (names es).length = es.length := List.length_map _

/-- A key has a place if and only if it is one of the names. -/
theorem isSome_place?_ofEntries (es : List Entry) (key : String) :
    ((ofEntries es).place? key).isSome = decide (key ∈ names es) :=
  isSome_lookup_zipIdx _ _ _

/-- The place of a key is that of the entry with this name. -/
theorem exists_of_place? (hes : (names es).Nodup) (h : (ofEntries es).place? key = some i) :
    ∃ e, es[i]? = some e ∧ e.name = key := by
  have hkey : (names es)[i]? = some key := (lookup_zipIdx_eq_some_iff hes).mp h
  rw [names, List.getElem?_map] at hkey
  exact Option.map_eq_some_iff.mp hkey

/-- If no name comes twice, the place of an entry is found by its name. -/
theorem place?_of_getElem? (hes : (names es).Nodup) {e : Entry} (h : es[i]? = some e) :
    (ofEntries es).place? e.name = some i := by
  refine (lookup_zipIdx_eq_some_iff hes).mpr ?_
  rw [names, List.getElem?_map, h]
  rfl

/-! ## Single edits -/

/-- The key of a new parameter is put behind the others. -/
theorem names_concat (es : List Entry) (p : Parameter) :
    names (closeLast es ++ [⟨p.key, p⟩]) = names es ++ [p.key] := by
  rw [names, List.map_append]
  exact congrArg (· ++ [p.key]) (names_closeLast es)

/-- A parameter with a new name goes to the end. -/
theorem insert_ofEntries {p : Parameter} (h : p.key ∉ names es) :
    (ofEntries es).insert p = .ok (ofEntries (closeLast es ++ [⟨p.key, p⟩])) := by
  have hnew : ((ofEntries es).place? p.key).isSome = false := by
    rw [isSome_place?_ofEntries]
    exact decide_eq_false h
  have hplaces : (names es ++ [p.key]).zipIdx = (names es).zipIdx ++ [(p.key, es.length)] := by
    rw [List.zipIdx_append, length_names]
    simp
  rw [insert, hnew, ofEntries, ofEntries, names_concat, hplaces,
    List.map_append, map_parameter_closeLast]
  simp

/-- A parameter with a known key is not inserted. -/
theorem insert_ofEntries_of_mem {p : Parameter} (h : p.key ∈ names es) :
    (ofEntries es).insert p = .error ⟨p.key⟩ := by
  have hthere : ((ofEntries es).place? p.key).isSome = true := by
    rw [isSome_place?_ofEntries]
    exact decide_eq_true h
  rw [insert, hthere]
  rfl

/-- The entries without the one of a name. -/
def dropEntry (key : String) (es : List Entry) : List Entry := es.filter (·.name ≠ key)

/-- Without an entry of that name there is nothing to drop. -/
theorem dropEntry_of_notMem (h : key ∉ names es) : dropEntry key es = es := by
  refine List.filter_eq_self.mpr fun e he ↦ decide_eq_true ?_
  rintro rfl
  exact h (List.mem_map_of_mem he)

/-- If no name comes twice, an entry is dropped by its name as by its place. -/
theorem dropEntry_eq_eraseIdx (hes : (names es).Nodup) {e : Entry} (h : es[i]? = some e) :
    dropEntry e.name es = es.eraseIdx i := by
  induction es generalizing i with
  | nil => cases h
  | cons e' es ih =>
    obtain ⟨he', hnodup⟩ := List.nodup_cons.mp hes
    cases i with
    | zero =>
      obtain rfl : e' = e := Option.some.inj h
      have hhead : dropEntry e'.name (e' :: es) = dropEntry e'.name es := by simp [dropEntry]
      exact hhead.trans (dropEntry_of_notMem he')
    | succ i =>
      have hne : e'.name ≠ e.name := by
        intro heq
        exact he' (heq ▸ List.mem_map_of_mem (List.mem_of_getElem? h))
      have hhead : dropEntry e.name (e' :: es) = e' :: dropEntry e.name es := by
        simp [dropEntry, hne]
      rw [hhead, ih hnodup h, List.eraseIdx_cons_succ]

/-- The parameter with the name is removed, and its name with it. -/
theorem remove?_ofEntries (hes : (names es).Nodup) {e : Entry} (h : es[i]? = some e)
    (htext : Classifier.keyOf text = e.name) :
    (ofEntries es).remove? text = some (e.parameter, ofEntries (dropEntry e.name es)) := by
  have hplace := place?_of_getElem? hes h
  have hp : (ofEntries es).params[i]? = some e.parameter := by
    rw [ofEntries, List.getElem?_map, h]
    rfl
  have hindex : dropPlace e.name i (ofEntries es).index = (names (es.eraseIdx i)).zipIdx := by
    have hname : (names es)[i]? = some e.name := (lookup_zipIdx_eq_some_iff hes).mp hplace
    have hplaces := dropPlace_zipIdx hes hname (n := 0)
    rwa [Nat.zero_add, names, List.eraseIdx_map] at hplaces
  rw [dropEntry_eq_eraseIdx hes h, remove?, htext, hplace, Option.bind_eq_bind, Option.bind_some,
    hp, Option.bind_eq_bind, Option.bind_some, hindex, ofEntries, ofEntries, List.eraseIdx_map]
  rfl

/-- Without a parameter of that name nothing is removed. -/
theorem remove?_ofEntries_of_notMem (h : Classifier.keyOf text ∉ names es) :
    (ofEntries es).remove? text = none := by
  have hplace : (ofEntries es).place? (Classifier.keyOf text) = none := by
    rw [← Option.not_isSome_iff_eq_none, isSome_place?_ofEntries]
    simpa using h
  rw [remove?, hplace]
  rfl

/-- The entries with a change to the parameter of a name. -/
def changeEntry (key : String) (g : Parameter → Parameter) (es : List Entry) : List Entry :=
  es.map fun e ↦ if e.name = key then { e with parameter := g e.parameter } else e

/-- A changed parameter keeps the name that it was inserted with. -/
theorem names_changeEntry (key : String) (g : Parameter → Parameter) (es : List Entry) :
    names (changeEntry key g es) = names es := by
  rw [names, changeEntry, List.map_map]
  refine List.map_congr_left fun e _ ↦ ?_
  dsimp only [Function.comp]
  split_ifs <;> rfl

theorem changeEntry_of_notMem (h : key ∉ names es) (g : Parameter → Parameter) :
    changeEntry key g es = es := by
  refine (List.map_congr_left fun e he ↦ if_neg ?_).trans (List.map_id es)
  rintro rfl
  exact h (List.mem_map_of_mem he)

/-- The parameter with the name is changed, and no other. -/
theorem map_parameter_changeEntry (hes : (names es).Nodup) {e : Entry} (h : es[i]? = some e)
    (g : Parameter → Parameter) :
    (changeEntry e.name g es).map Entry.parameter = (es.map Entry.parameter).modify i g := by
  have hname : (names es)[i]? = some e.name := by
    rw [names, List.getElem?_map, h]
    rfl
  obtain ⟨hlt, -⟩ := List.getElem?_eq_some_iff.mp hname
  refine List.ext_getElem? fun j ↦ ?_
  rw [changeEntry, List.map_map, List.getElem?_map, List.getElem?_modify, List.getElem?_map]
  cases hj : es[j]? with
  | none => rfl
  | some e' =>
    have hname' : (names es)[j]? = some e'.name := by
      rw [names, List.getElem?_map, hj]
      rfl
    -- with distinct names, only the entry at this place has the name
    have hplace : e'.name = e.name ↔ i = j := by
      constructor
      · intro heq
        exact (List.getElem?_inj hlt hes).mp (hname.trans (heq ▸ hname'.symm))
      · rintro rfl
        exact congrArg Entry.name (Option.some.inj (hj.symm.trans h))
    by_cases hij : i = j
    · simp [hplace.mpr hij, hij]
    · simp [mt hplace.mp hij, hij]

/-- Changing a parameter by its name changes the entry with that name. -/
theorem modify_ofEntries (hes : (names es).Nodup) (text : String) (g : Parameter → Parameter) :
    (ofEntries es).modify text g = ofEntries (changeEntry (Classifier.keyOf text) g es) := by
  have hnames := names_changeEntry (Classifier.keyOf text) g es
  unfold modify find?
  split
  · next i hi =>
    obtain ⟨e, he, hname⟩ := exists_of_place? hes hi
    rw [ofEntries, ofEntries, hnames, ← hname, map_parameter_changeEntry hes he]
  · next hi =>
    have hnew : Classifier.keyOf text ∉ names es := by
      have hnone := isSome_place?_ofEntries es (Classifier.keyOf text)
      rw [hi] at hnone
      exact of_decide_eq_false hnone.symm
    rw [changeEntry_of_notMem hnew]

end Entries

/-! ## Runs -/

/-- A change to a list of parameters. -/
inductive Edit where
  | insert (p : Parameter)
  | remove (text : String)
  | modify (text : String) (g : Parameter → Parameter)

namespace Edit

/-- An insertion that fails changes nothing, nor does the removal of what is not there. -/
def apply (ps : Parameters) : Edit → Parameters
  | .insert p => (ps.insert p).toOption.getD ps
  | .remove text => ((ps.remove? text).map Prod.snd).getD ps
  | .modify text g => ps.modify text g

/-- What an edit does to the entries. -/
def note (es : List Entry) : Edit → List Entry
  | .insert p => if p.key ∈ names es then es else closeLast es ++ [⟨p.key, p⟩]
  | .remove text => dropEntry (Classifier.keyOf text) es
  | .modify text g => changeEntry (Classifier.keyOf text) g es

def inserted? : Edit → Option String
  | .insert p => some p.key
  | _ => none

variable {es : List Entry}

/-- The names stay distinct, and in the order in which they were inserted. -/
theorem names_note (hes : (names es).Nodup) (e : Edit) : (names (e.note es)).Nodup ∧
    (names (e.note es)).Sublist (names es ++ e.inserted?.toList) := by
  cases e with
  | insert p =>
    dsimp only [note]
    split_ifs with hthere
    · exact ⟨hes, List.sublist_append_left _ _⟩
    · rw [names_concat]
      exact ⟨hes.append (List.nodup_singleton _) (by simpa using hthere), .refl _⟩
  | remove text =>
    have hsub : (names (dropEntry (Classifier.keyOf text) es)).Sublist (names es) :=
      List.filter_sublist.map Entry.name
    exact ⟨hes.sublist hsub, hsub.trans (List.sublist_append_left _ _)⟩
  | modify text g =>
    change (names (changeEntry _ _ _)).Nodup ∧ (names (changeEntry _ _ _)).Sublist _
    rw [names_changeEntry]
    exact ⟨hes, List.sublist_append_left _ _⟩

/-- An edit does to the parameters what it does to the entries. -/
theorem apply_ofEntries (hes : (names es).Nodup) (e : Edit) :
    e.apply (ofEntries es) = ofEntries (e.note es) := by
  cases e with
  | insert p =>
    dsimp only [note, apply]
    split_ifs with hthere
    · rw [insert_ofEntries_of_mem hthere]
      rfl
    · rw [insert_ofEntries hthere]
      rfl
  | remove text =>
    dsimp only [note, apply]
    by_cases hthere : Classifier.keyOf text ∈ names es
    · obtain ⟨e, he, hname⟩ := List.mem_map.mp hthere
      obtain ⟨i, hi⟩ := List.getElem?_of_mem he
      rw [remove?_ofEntries hes hi hname.symm, hname]
      rfl
    · rw [remove?_ofEntries_of_notMem hthere, dropEntry_of_notMem hthere]
      rfl
  | modify text g => exact modify_ofEntries hes text g

end Edit

/-- The parameters after these edits, from none at all. -/
def run (edits : List Edit) : Parameters := edits.foldl Edit.apply empty

/-- The entries after these edits. -/
def entries (edits : List Edit) : List Entry := edits.foldl Edit.note []

theorem run_concat (edits : List Edit) (e : Edit) : run (edits ++ [e]) = e.apply (run edits) := by
  rw [run, List.foldl_append]
  rfl

theorem entries_concat (edits : List Edit) (e : Edit) :
    entries (edits ++ [e]) = e.note (entries edits) := by
  rw [entries, List.foldl_append]
  rfl

/-- No name comes twice, and each is that of a parameter that was inserted, in the order of the
insertions. -/
theorem names_entries (edits : List Edit) : (names (entries edits)).Nodup ∧
    (names (entries edits)).Sublist (edits.filterMap Edit.inserted?) := by
  induction edits using List.reverseRecOn with
  | nil => exact ⟨List.nodup_nil, .refl _⟩
  | append_singleton edits e ih =>
    obtain ⟨hnodup, hsub⟩ := ih
    obtain ⟨hnodup', hsub'⟩ := e.names_note hnodup
    rw [entries_concat, List.filterMap_append]
    refine ⟨hnodup', hsub'.trans ?_⟩
    have hlast : [e].filterMap Edit.inserted? = e.inserted?.toList := by
      cases e <;> rfl
    rw [hlast]
    exact hsub.append_right _

/-- The edited parameters are those of the entries, with the index of their names. -/
theorem run_eq (edits : List Edit) : run edits = ofEntries (entries edits) := by
  induction edits using List.reverseRecOn with
  | nil => rfl
  | append_singleton edits e ih =>
    rw [run_concat, entries_concat, ih, e.apply_ofEntries (names_entries edits).1]

/-! ## Keys -/

/-- The parameters are found under these names, and under no others. -/
structure IsIndexed (ps : Parameters) (es : List Entry) : Prop where
  params_eq : ps.params = es.map Entry.parameter
  distinct : (names es).Nodup
  contains_iff (text : String) : ps.contains text = true ↔ Classifier.keyOf text ∈ names es
  get?_eq (e : Entry) (he : e ∈ es) (text : String) (htext : Classifier.keyOf text = e.name) :
    ps.get? text = some e.parameter
  insert_eq (p : Parameter) (hp : p.key ∈ names es) : ps.insert p = .error ⟨p.key⟩

/-- The parameters are found under their keys, and under no others. -/
structure Mirrors (ps : Parameters) : Prop where
  distinct : ps.keys.Nodup
  contains_iff (text : String) : ps.contains text = true ↔ Classifier.keyOf text ∈ ps.keys
  get?_key (p : Parameter) (hp : p ∈ ps.params) : ps.get? p.key = some p
  key_of_get? (text : String) (p : Parameter) (hp : ps.get? text = some p) :
    p.key = Classifier.keyOf text
  insert_eq (p : Parameter) (hp : p.key ∈ ps.keys) : ps.insert p = .error ⟨p.key⟩

section Keys

variable {es : List Entry}

/-- What can be found is there. -/
theorem contains_of_get? {ps : Parameters} {text : String} {p : Parameter}
    (h : ps.get? text = some p) : ps.contains text = true := by
  obtain ⟨i, hi, -⟩ := Option.bind_eq_some_iff.mp h
  rw [contains, hi]
  rfl

/-- Entries without a name twice are indexed by their names. -/
theorem isIndexed_ofEntries (hes : (names es).Nodup) : (ofEntries es).IsIndexed es where
  params_eq := rfl
  distinct := hes
  contains_iff text := by
    rw [contains, find?, isSome_place?_ofEntries]
    exact decide_eq_true_iff
  get?_eq e he text htext := by
    obtain ⟨i, hi⟩ := List.getElem?_of_mem he
    rw [get?, find?, htext, place?_of_getElem? hes hi, Option.bind_some,
      ofEntries, List.getElem?_map, hi]
    rfl
  insert_eq p hp := insert_ofEntries_of_mem hp

/-- The index mirrors the keys if and only if every parameter still has the key it was inserted
with. -/
theorem IsIndexed.mirrors_iff {ps : Parameters} (h : ps.IsIndexed es) :
    ps.Mirrors ↔ ∀ e ∈ es, e.Agrees := by
  have hkeys : ps.keys = es.map fun e ↦ e.parameter.key := by
    rw [keys, h.params_eq, List.map_map]
    rfl
  constructor
  · intro hmirrors e he
    have hp : e.parameter ∈ ps.params := h.params_eq ▸ List.mem_map_of_mem he
    have hfound := hmirrors.get?_key _ hp
    have hkey : e.parameter.key = Classifier.keyOf e.parameter.key :=
      hmirrors.key_of_get? _ _ hfound
    have hthere := (h.contains_iff e.parameter.key).mp (contains_of_get? hfound)
    obtain ⟨e', he', hname⟩ := List.mem_map.mp hthere
    -- what is found there is the parameter itself, and no other has its key
    have hparameter : e'.parameter = e.parameter :=
      Option.some.inj ((h.get?_eq e' he' _ hname.symm).symm.trans hfound)
    have hdistinct : (es.map fun e ↦ e.parameter.key).Nodup := hkeys ▸ hmirrors.distinct
    obtain rfl : e' = e :=
      List.inj_on_of_nodup_map hdistinct he' he (congrArg Parameter.key hparameter)
    have hname' : e'.parameter.key = e'.name := hkey.trans hname.symm
    exact ⟨hname', hname' ▸ hkey.symm⟩
  · intro hnames
    have hkeys' : ps.keys = names es := hkeys.trans (List.map_congr_left fun e he ↦ (hnames e he).1)
    refine ⟨hkeys' ▸ h.distinct, fun text ↦ hkeys' ▸ h.contains_iff text, fun p hp ↦ ?_,
      fun text p hp ↦ ?_, fun p hp ↦ h.insert_eq p (hkeys' ▸ hp)⟩
    · rw [h.params_eq] at hp
      obtain ⟨e, he, rfl⟩ := List.mem_map.mp hp
      obtain ⟨hkey, hname⟩ := hnames e he
      exact h.get?_eq e he _ (by rw [hkey, hname])
    · obtain ⟨e, he, hname⟩ := List.mem_map.mp ((h.contains_iff text).mp (contains_of_get? hp))
      rw [h.get?_eq e he text hname.symm] at hp
      obtain rfl := Option.some.inj hp
      exact (hnames e he).1.trans hname

namespace Edit

/-- An edit that gives no parameter another key. -/
def KeepsKeys : Edit → Prop
  | .insert p => Classifier.keyOf p.key = p.key
  | .remove _ => True
  | .modify _ g => ∀ p : Parameter, (g p).key = p.key

/-- Closing the last parameter leaves names and keys in agreement. -/
theorem agrees_closeLast (hes : ∀ e ∈ es, e.Agrees) : ∀ e ∈ closeLast es, e.Agrees := by
  have hclosed (p : Parameter) : p.closed.key = p.key := by
    unfold Parameter.closed
    split_ifs <;> rfl
  fun_induction closeLast es with
  | case1 => exact hes
  | case2 e =>
    obtain ⟨hkey, hname⟩ := hes e List.mem_cons_self
    exact List.forall_mem_singleton.mpr ⟨(hclosed _).trans hkey, hname⟩
  | case3 e es _ ih =>
    obtain ⟨he, hes⟩ := List.forall_mem_cons.mp hes
    exact List.forall_mem_cons.mpr ⟨he, ih hes⟩

/-- An edit that keeps keys leaves names and keys in agreement. -/
theorem agrees_note {e : Edit} (he : e.KeepsKeys) (hes : ∀ e ∈ es, e.Agrees) :
    ∀ e' ∈ e.note es, e'.Agrees := by
  cases e with
  | insert p =>
    dsimp only [note]
    split_ifs
    · exact hes
    · rw [List.forall_mem_append, List.forall_mem_singleton]
      exact ⟨agrees_closeLast hes, rfl, he⟩
  | remove text => exact fun e' he' ↦ hes e' (List.mem_of_mem_filter he')
  | modify text g =>
    intro e' he'
    obtain ⟨e, hmem, rfl⟩ := List.mem_map.mp he'
    obtain ⟨hkey, hname⟩ := hes e hmem
    split_ifs
    · exact ⟨(he e.parameter).trans hkey, hname⟩
    · exact ⟨hkey, hname⟩

end Edit

/-- The index mirrors the keys after edits that give no parameter another key. -/
theorem mirrors_run_of_keepsKeys {edits : List Edit} (h : ∀ e ∈ edits, e.KeepsKeys) :
    (run edits).Mirrors := by
  have hagrees : ∀ e ∈ entries edits, e.Agrees := by
    induction edits using List.reverseRecOn with
    | nil => simp [entries]
    | append_singleton edits e ih =>
      rw [List.forall_mem_append, List.forall_mem_singleton] at h
      rw [entries_concat]
      exact Edit.agrees_note h.2 (ih h.1)
  rw [run_eq]
  exact (isIndexed_ofEntries (names_entries edits).1).mirrors_iff.mpr hagrees

end Keys

/-- Parameters are found under the keys they were inserted with, in the order of insertion.  These
mirror their own keys as long as no edit has given a parameter another key. -/
theorem mirrors_run_iff (edits : List Edit) : (run edits).IsIndexed (entries edits) ∧
    (names (entries edits)).Sublist (edits.filterMap Edit.inserted?) ∧
    ((run edits).Mirrors ↔ ∀ e ∈ entries edits, e.Agrees) := by
  obtain ⟨hdistinct, horder⟩ := names_entries edits
  have hindexed : (run edits).IsIndexed (entries edits) := by
    rw [run_eq]
    exact isIndexed_ofEntries hdistinct
  exact ⟨hindexed, horder, hindexed.mirrors_iff⟩

/-- A parameter with a number and one value. -/
def numbered (n : Int) : Parameter :=
  .ofValues ⟨none, .text "f", some (Field.int n).neverPad, none, none⟩ [.int 1]

/-- A renumbered parameter is not found under its new key, and another one can be inserted with
it. -/
theorem not_mirrors_of_renumbered : ¬ (run [.insert (numbered 4),
    .modify "f4" fun p ↦
      { p with classifier := p.classifier.setNumber 5 }, .insert (numbered 5)]).Mirrors := by
  intro h
  have hkeys : (run [.insert (numbered 4),
      .modify "f4" fun p ↦ { p with classifier := p.classifier.setNumber 5 },
      .insert (numbered 5)]).keys =
      ["f5", "f5"] := by decide +kernel
  have hdistinct := hkeys ▸ h.distinct
  simp at hdistinct

end Parameters

end TransportDeck
