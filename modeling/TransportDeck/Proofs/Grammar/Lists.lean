import TransportDeck.Grammar.Lists
import TransportDeck.Proofs.Grammar.Atoms
import TransportDeck.Proofs.Node.Runs

/-!
# What lists read

A list that is being read has what was read so far as its source.  A shorthand takes the value
before it out of the list again, as its lead.
-/

namespace TransportDeck

/-! ## Lists that grow -/

namespace FieldList

/-- A list that was read from this text, with no layout behind it yet. -/
structure ReadAs (l : FieldList) (text : String) : Prop where
  isRead : l.IsRead
  no_tail : l.tail = none
  source_eq : l.source = text

variable {l : FieldList} {text : String}

theorem readAs_empty : empty.ReadAs "" := ⟨⟨by simp [empty], rfl⟩, rfl, rfl⟩

/-- Taking a number for a run leaves the text as it was read. -/
theorem ReadAs.takeId (h : l.ReadAs text) : l.takeId.ReadAs text :=
  ⟨⟨h.isRead.items, h.isRead.not_rebuilt⟩, h.no_tail, h.source_eq⟩

/-- Without layout at its end a list has the text of its items. -/
theorem source_of_no_tail (h : l.tail = none) :
    l.source = String.join (l.items.map Item.source) := by
  rw [source, h]
  exact String.append_empty

/-- An item adds its text behind that of the list. -/
theorem ReadAs.append {l' : FieldList} (h : l.ReadAs text) {i : Item} (hi : i.IsRead)
    (hitems : l'.items = l.items ++ [i]) (htail : l'.tail = l.tail)
    (hrebuilt : l'.rebuilt = l.rebuilt) : l'.ReadAs (text ++ i.source) := by
  have hnone : l'.tail = none := htail.trans h.no_tail
  refine ⟨⟨?_, hrebuilt.trans h.isRead.not_rebuilt⟩, hnone, ?_⟩
  · rw [hitems, List.forall_mem_append, List.forall_mem_singleton]
    exact ⟨h.isRead.items, hi⟩
  · rw [source_of_no_tail hnone, hitems, ← h.source_eq, source_of_no_tail h.no_tail,
      List.map_append, String.join_append, List.map_singleton, String.join_cons,
      String.join_nil, String.append_empty]

/-- A field adds its token. -/
theorem ReadAs.pushField {f : Field} {token : String} (h : l.ReadAs text) (hf : f.ReadAs token) :
    (l.pushField f).ReadAs (text ++ token) := by
  rw [← hf.source_eq]
  exact h.append (i := .field f) hf.isRead rfl rfl rfl

/-- A run adds its token. -/
theorem ReadAs.pushRun {s : Shorthand} {token : String} (h : l.ReadAs text) (hs : s.ReadAs token) :
    (l.pushRun s).ReadAs (text ++ token) := by
  rw [← hs.2]
  exact h.append (i := .run s) hs.1 rfl rfl rfl

/-- A run takes its lead out of the list and puts it back. -/
theorem ReadAs.pushRun_lead {lead : Lead} {s : Shorthand} {before token : String}
    (h : l.ReadAs before) (hlead : before ++ lead.source = text)
    (hs : s.ReadAs (lead.source ++ token)) : (l.pushRun s).ReadAs (text ++ token) := by
  have hrun := h.pushRun hs
  rwa [← String.append_assoc, hlead] at hrun

/-- The field that is taken out has the end of the text as its source. -/
theorem ReadAs.popField? {f : Field} {rest : FieldList} (h : l.ReadAs text)
    (hpop : l.popField? = some (f, rest)) :
    f.IsRead ∧ ∃ before, rest.ReadAs before ∧ before ++ f.source = text := by
  unfold FieldList.popField? at hpop
  split at hpop
  · next g hlast =>
    obtain ⟨rfl, rfl⟩ := Prod.mk.inj (Option.some.inj hpop)
    obtain ⟨items, hitems⟩ := List.getLast?_eq_some_iff.mp hlast
    have hread := h.isRead.items
    rw [hitems, List.forall_mem_append, List.forall_mem_singleton] at hread
    refine ⟨hread.2, String.join (items.map Item.source), ⟨⟨?_, h.isRead.not_rebuilt⟩,
      h.no_tail, ?_⟩, ?_⟩
    · simpa [hitems] using hread.1
    · refine (source_of_no_tail (l := { l with items := l.items.dropLast }) h.no_tail).trans ?_
      simp [hitems]
    · rw [← h.source_eq, source_of_no_tail h.no_tail, hitems, List.map_append, String.join_append,
        List.map_singleton, String.join_cons, String.join_nil, String.append_empty]
      rfl
  · cases hpop

end FieldList

/-! ## Layout behind a list -/

/-- A field is written as its value and the layout behind it. -/
theorem Field.source_dropLayout (f : Field) :
    (f.setLayout none).source ++ layoutText f.layout = f.source := by
  rw [source_setLayout, source]
  simp [layoutText]

namespace Shorthand

variable {s : Shorthand}

theorem mapLast_eq (g : Field → Field) (fs : List Field) (f : Field) :
    mapLast g (fs ++ [f]) = fs ++ [g f] := by
  induction fs with
  | nil => rfl
  | cons a fs ih =>
    obtain ⟨b, bs, hbs⟩ : ∃ b bs, fs ++ [f] = b :: bs := List.exists_cons_of_ne_nil (by simp)
    rw [List.cons_append, hbs, mapLast, ← hbs, ih]
    · rfl
    · simp

/-- The members of an interpolation that was read end with its bound, which is not its lead. -/
theorem IsRead.exists_bound (h : s.IsRead) (hinter : s.kind.isInterpolation = true) :
    ∃ fs f, s.members = fs ++ [f] ∧ f.IsRead ∧ (s.hasLead = true → fs ≠ []) := by
  obtain ⟨f, hlast, hf⟩ := h.last hinter
  obtain ⟨fs, hfs⟩ := List.getLast?_eq_some_iff.mp hlast
  refine ⟨fs, f, hfs, hf, ?_⟩
  rintro hlead rfl
  have hbounds := h.bounds hinter
  simp [leadCount, hlead, hfs] at hbounds

/-- Another last field has the same field in front of it. -/
theorem head?_setLast {fs : List Field} {f g : Field} (h : fs ≠ []) :
    (fs ++ [g]).head? = (fs ++ [f]).head? := by
  obtain ⟨a, as, rfl⟩ := List.exists_cons_of_ne_nil h
  rfl

/-- The layout that is taken off stood at the end. -/
theorem IsRead.source_setTrailing (h : s.IsRead) :
    (s.setTrailing none).source ++ layoutText s.trailing? = s.source := by
  unfold setTrailing trailing?
  split_ifs with hinter
  · obtain ⟨fs, f, hfs, -, hne⟩ := h.exists_bound hinter
    have hlead : ({ s with members := fs ++ [f.setLayout none] } : Shorthand).leadSource =
        s.leadSource := by
      unfold leadSource
      change (if s.hasLead = true then _ else _) = _
      split_ifs with hlead
      · rw [hfs, head?_setLast (hne hlead)]
      · rfl
    rw [hfs, mapLast_eq, source, hlead]
    simp only [source, behindSource, hinter, if_true, hfs, List.getLast?_concat, Option.bind_some,
      fieldSource, Option.map_some, Option.getD_some, String.append_assoc, f.source_dropLayout]
    rfl
  · simp only [source, behindSource, hinter, Bool.false_eq_true, if_false, String.append_assoc]
    rfl

/-- A run that was read may have the layout behind it cut off. -/
theorem IsRead.setTrailing (h : s.IsRead) : (s.setTrailing none).IsRead := by
  unfold Shorthand.setTrailing
  split_ifs with hinter
  · obtain ⟨fs, f, hfs, hf, hne⟩ := h.exists_bound hinter
    rw [hfs, mapLast_eq]
    have hlength : (fs ++ [f.setLayout none]).length = s.members.length := by simp [hfs]
    refine ⟨?_, fun _ ↦ ⟨f.setLayout none, List.getLast?_concat, hf.setLayout none⟩, ?_, h.factor,
      h.letter, h.no_lead, ?_⟩
    · intro hlead
      obtain ⟨g, hg, hread⟩ := h.lead hlead
      refine ⟨g, ?_, hread⟩
      rw [hfs] at hg
      exact (head?_setLast (hne hlead)).trans hg
    · intro hkind t
      have hplaces : ({ s with members := fs ++ [f.setLayout none] } : Shorthand).places =
          s.places := by
        simp only [places, hlength]
        rfl
      rw [hplaces]
      exact h.count hkind t
    · intro _
      exact hlength ▸ h.bounds hinter
  · exact ⟨h.lead, h.last, h.count, h.factor, h.letter, h.no_lead, h.bounds⟩

end Shorthand

namespace Item

variable {i : Item}

/-- An item that was read may have the layout behind it cut off. -/
theorem IsRead.setTrailing (h : i.IsRead) : (i.setTrailing none).IsRead := by
  cases i with
  | field f => exact Field.IsRead.setLayout h none
  | run s => exact Shorthand.IsRead.setTrailing h

/-- What is cut off an item is the end of its text. -/
theorem IsRead.source_setTrailing (h : i.IsRead) :
    (i.setTrailing none).source ++ layoutText i.trailing? = i.source := by
  cases i with
  | field f => exact f.source_dropLayout
  | run s => exact Shorthand.IsRead.source_setTrailing h

end Item

/-- A list that was read may have the layout behind it cut off, and has the same text. -/
theorem FieldList.ReadAs.detachTail {l : FieldList} {text : String} (h : l.ReadAs text) :
    l.detachTail.IsRead ∧ l.detachTail.source = text := by
  unfold FieldList.detachTail
  split
  · next layout hlayout =>
    obtain ⟨i, hlast, htrailing⟩ := Option.bind_eq_some_iff.mp hlayout
    obtain ⟨items, hitems⟩ := List.getLast?_eq_some_iff.mp hlast
    have hread := h.isRead.items
    rw [hitems, List.forall_mem_append, List.forall_mem_singleton] at hread
    have hmap : l.mapLastItem (·.setTrailing none) =
        { l with items := items ++ [i.setTrailing none] } := by
      rw [FieldList.mapLastItem, hlast, hitems]
      simp
    rw [hmap]
    constructor
    · refine ⟨?_, h.isRead.not_rebuilt⟩
      change ∀ j ∈ items ++ [i.setTrailing none], _
      rw [List.forall_mem_append, List.forall_mem_singleton]
      exact ⟨hread.1, hread.2.setTrailing⟩
    · have htail : (l.tailOrEmpty ++ layout).text = layoutText i.trailing? := by
        rw [Layout.text_append, FieldList.tailOrEmpty, h.no_tail, htrailing]
        simp [layoutText]
      rw [← h.source_eq, source_of_no_tail h.no_tail, hitems]
      change String.join ((items ++ [i.setTrailing none]).map Item.source) ++
        (l.tailOrEmpty ++ layout).text = _
      rw [htail, List.map_append, List.map_append, String.join_append, String.join_append,
        List.map_singleton, List.map_singleton, String.join_cons, String.join_cons,
        ← hread.2.source_setTrailing]
      simp only [String.join_nil, String.append_empty, String.append_assoc]
  · exact ⟨h.isRead, h.source_eq⟩

/-! ## Parameters that grow -/

namespace Parameters

/-- Parameters that were read from this text, before room was made between them. -/
def ReadAs (ps : Parameters) (text : String) : Prop :=
  ∃ raw : Parameters, raw.closed = ps ∧ raw.IsRead ∧ raw.source = text

variable {ps ps' : Parameters} {text : String}

theorem readAs_empty : empty.ReadAs "" := ⟨empty, rfl, by simp [IsRead, empty], rfl⟩

theorem closeAll_concat (ps : List Parameter) (p : Parameter) :
    closeAll (ps ++ [p]) = mapLast Parameter.closed (closeAll ps) ++ [p] := by
  induction ps with
  | nil => rfl
  | cons q qs ih =>
    cases qs with
    | nil => rfl
    | cons r rs =>
      obtain ⟨u, us, hus⟩ : ∃ u us, closeAll (r :: rs) = u :: us := by
        cases rs <;> exact ⟨_, _, rfl⟩
      change q.closed :: closeAll ((r :: rs) ++ [p]) =
        mapLast Parameter.closed (q.closed :: closeAll (r :: rs)) ++ [p]
      rw [ih, hus]
      rfl

/-- A parameter that was read adds its text. -/
theorem ReadAs.insert {p : Parameter} {source : String} (h : ps.ReadAs text) (hp : p.IsRead)
    (hsource : p.source = source) (hinsert : ps.insert p = .ok ps') :
    ps'.ReadAs (text ++ source) := by
  obtain ⟨raw, rfl, hraw, rfl⟩ := h
  unfold Parameters.insert at hinsert
  split_ifs at hinsert
  obtain rfl := Except.ok.inj hinsert
  refine ⟨⟨raw.params ++ [p], raw.index ++ [(p.key, raw.closed.params.length)]⟩, ?_, ?_, ?_⟩
  · rw [Parameters.closed, closeAll_concat]
    rfl
  · change ∀ q ∈ raw.params ++ [p], q.IsRead
    rw [List.forall_mem_append, List.forall_mem_singleton]
    exact ⟨hraw, hp⟩
  · simp [Parameters.source, String.join_append, hsource]

end Parameters

/-! ## Values -/

namespace Production

namespace Reads

variable {c : Cursor}

/-- Nothing is read where a run is checked. -/
theorem orMalformed {α : Type} {span : Span} {e : Except ShorthandError α} :
    Reads (orMalformed span e) c fun a ts ↦ e = .ok a ∧ ts = [] := by
  cases e with
  | ok a => exact .pure ⟨rfl, rfl⟩
  | error e => exact throw

/-- What leads a run is taken from the list, and both together have its text. -/
theorem leadOf {kind : ShorthandKind} {span : Span} {l : FieldList} {text : String}
    (h : l.ReadAs text) : Reads (leadOf kind span l) c fun r ts ↦
      ts = [] ∧ r.1.IsRead ∧ ∃ before, r.2.ReadAs before ∧ before ++ r.1.source = text := by
  unfold Production.leadOf
  split_ifs
  · exact .pure ⟨rfl, trivial, text, h, String.append_empty⟩
  · split
    · next f rest hpop =>
      obtain ⟨hf, before, hrest, hbefore⟩ := h.popField? hpop
      exact .pure ⟨rfl, hf, before, hrest, hbefore⟩
    · exact throw

/-- A run of shorthands adds its text to the list. -/
theorem shorthand {g : Grammar} {kind : ShorthandKind} {t : Token} {l : FieldList} {text : String}
    (h : l.ReadAs text) (ht : kind = .jump → ∃ c ∈ t.text.toList, Lexer.isJumpLetter c = true) :
    Reads (shorthand g kind t l) c fun l' ts ↦ l'.ReadAs (text ++ t.text ++ textOf ts) := by
  unfold Production.shorthand
  split_ifs
  · exact throw
  have hid := h.takeId
  cases kind with
  | jump =>
    refine layout.bind fun behind ls c' _ hbehind ↦ ?_
    refine orMalformed.bind ?_
    rintro s _ c'' - ⟨hs, rfl⟩
    refine .pure ?_
    have hrun := hid.pushRun (Shorthand.jump_ok hs (ht rfl))
    simpa [hbehind, String.append_assoc] using hrun
  | copies =>
    refine (leadOf hid).bind ?_
    rintro ⟨lead, l'⟩ _ c₁ - ⟨rfl, hlead, before, hbefore, htext⟩
    refine layout.bind fun behind ls c₂ _ hbehind ↦ ?_
    refine orMalformed.bind ?_
    rintro s _ c₃ - ⟨hs, rfl⟩
    have hread := Shorthand.copies_ok hs hlead
    rw [String.append_assoc] at hread
    refine .pure ?_
    simpa [hbehind, String.append_assoc] using hbefore.pushRun_lead htext hread
  | multiply =>
    refine (leadOf hid).bind ?_
    rintro ⟨lead, l'⟩ _ c₁ - ⟨rfl, hlead, before, hbefore, htext⟩
    refine layout.bind fun behind ls c₂ _ hbehind ↦ ?_
    refine orMalformed.bind ?_
    rintro s _ c₃ - ⟨hs, rfl⟩
    have hread := Shorthand.multiply_ok hs hlead
    rw [String.append_assoc] at hread
    refine .pure ?_
    simpa [hbehind, String.append_assoc] using hbefore.pushRun_lead htext hread
  | linear | logarithmic =>
    refine (leadOf hid).bind ?_
    rintro ⟨lead, l'⟩ _ c₁ - ⟨rfl, hlead, before, hbefore, htext⟩
    refine layout.bind fun mid ms c₂ _ hmid ↦ ?_
    refine (value _ _).bind fun last vs c₃ _ hlast ↦ ?_
    refine orMalformed.bind ?_
    rintro s _ c₄ - ⟨hs, rfl⟩
    have hread := Shorthand.interpolate_ok rfl hs hlead hlast.isRead
    rw [String.append_assoc] at hread
    refine .pure ?_
    simpa [hmid, hlast.source_eq, String.append_assoc] using hbefore.pushRun_lead htext hread

/-- An item adds its text to the list. -/
theorem item? {g : Grammar} {preferred : ValueKind} {l : FieldList} {text : String}
    (h : l.ReadAs text) : Reads (item? g preferred l) c fun o ts ↦
      match o with
      | some l' => l'.ReadAs (text ++ textOf ts)
      | none => ts = [] := by
  refine .current ?_
  split
  · exact .pure rfl
  next t hhead =>
  obtain ⟨us, hrest⟩ := List.head?_eq_some_iff.mp hhead
  split
  · exact .map ((value _ _).mono fun f ts hf ↦ h.pushField hf)
  · exact .map ((value _ _).mono fun f ts hf ↦ h.pushField hf)
  · next kind hkind =>
    refine lexed fun hlex ↦ ?_
    have hmem : t ∈ c.rest := by simp [hrest]
    refine (advance hrest).bind ?_
    rintro _ _ c' - rfl
    refine .map ((shorthand h fun hjump ↦ ?_).mono fun l' ts hl' ↦ ?_)
    · exact (hlex t hmem).jump (hjump ▸ hkind)
    · simpa [String.append_assoc] using hl'
  · refine .get ?_
    split_ifs
    · exact .pure rfl
    · exact .map ((value _ _).mono fun f ts hf ↦ h.pushField hf)
    · exact .pure rfl

/-- A list reads all of its source. -/
theorem values (g : Grammar) (preferred : ValueKind) : Reads (values g preferred) c fun l ts ↦
    l.IsRead ∧ l.source = textOf ts := by
  refine .map ((loop (I := fun l ts ↦ l.ReadAs (textOf ts)) ?_ FieldList.readAs_empty).mono
    fun l ts h ↦ h.detachTail)
  intro l ts c' _ h
  refine (item? h).mono fun o us ho ↦ ?_
  cases o with
  | some l' => simpa using ho
  | none => exact ho

/-! ## Nuclides -/

/-- A pair adds its text to the material. -/
theorem nuclide? (ns : Nuclides) : Reads (nuclide? ns) c fun o ts ↦
    match o with
    | some ns' => (ns.IsRead → ns'.IsRead) ∧ ns'.source = ns.source ++ textOf ts
    | none => ts = [] := by
  refine .current ?_
  split_ifs
  · refine (value _ _).bind fun id is c₁ _ hid ↦ ?_
    refine .map ((value _ _).mono fun amount as hamount ↦ ⟨fun h ↦ ?_, ?_⟩)
    · change ∀ n ∈ ns.pairs ++ [Nuclide.of id amount], _
      rw [List.forall_mem_append, List.forall_mem_singleton]
      exact ⟨h, hid.isRead, hamount.isRead_asSignedFraction⟩
    · simp [Nuclides.source, Nuclides.push, Nuclide.of, String.join_append, hid.source_eq,
        hamount.source_eq]
  · exact .pure rfl

/-- A material has the text that it is read from. -/
theorem nuclides : Reads nuclides c fun ns ts ↦ ns.IsRead ∧ ns.source = textOf ts := by
  refine (loop (I := fun ns ts ↦ ns.IsRead ∧ ns.source = textOf ts) ?_ ?_).bind ?_
  · rintro ns ts c' - ⟨hread, hsource⟩
    refine (nuclide? ns).mono fun o us ho ↦ ?_
    cases o with
    | some ns' => exact ⟨ho.1 hread, by rw [ho.2, hsource, textOf_append]⟩
    | none => exact ho
  · exact ⟨by simp [Nuclides.IsRead, Nuclides.empty], rfl⟩
  · intro ns ts c' _ h
    split_ifs
    · exact unexpected
    · exact .pure (by simpa using h)

/-! ## Parameters -/

/-- A separator has the text that it is read from. -/
theorem separator? (g : Grammar) : Reads (separator? g) c fun l ts ↦ layoutText l = textOf ts := by
  refine .currentKind ?_
  split_ifs with hequals
  · obtain ⟨t, hhead, hkind⟩ := Option.map_eq_some_iff.mp (beq_iff_eq.mp hequals)
    obtain ⟨us, hrest⟩ := List.head?_eq_some_iff.mp hhead
    refine spells hrest hkind rfl fun ht ↦ ?_
    refine (advance hrest).bind ?_
    rintro _ _ c' - rfl
    refine .map (layout.mono fun l ts hl ↦ ?_)
    simp [layoutText, Layout.text_getD, ht, ← hl]
  · exact unexpected
  · exact .pure rfl

/-- A parameter has the text that it is read from. -/
theorem parameter (g : Grammar) : Reads (parameter g) c fun p ts ↦
    p.IsRead ∧ p.source = textOf ts := by
  refine (classifier g).bind ?_
  rintro cl cs c₁ - ⟨hcl, hclassifier⟩
  refine (separator? g).bind fun sep ss c₂ _ hsep ↦ ?_
  refine (values g .int).bind ?_
  rintro vs ts c₃ - ⟨hvs, hvalues⟩
  split_ifs
  · exact unexpected
  · refine .pure ⟨⟨hcl, hvs⟩, ?_⟩
    simp [Parameter.source, hclassifier, hsep, hvalues, String.append_assoc]

end Reads

/-- A parameter adds its text to the others, unless it is reported. -/
theorem ReadsOrReports.parameter? (g : Grammar) (ps : Parameters) (c : Cursor) :
    ReadsOrReports (parameter? g ps) c fun o us ↦ ∀ ts, ps.ReadAs (textOf ts) →
      match o with
      | some ps' => ps'.ReadAs (textOf (ts ++ us))
      | none => us = [] := by
  refine .get ?_
  split_ifs
  · refine .get ((Reads.parameter g).bindReports ?_)
    rintro p us c' - - ⟨hp, hsource⟩
    split
    · next ps' hinsert =>
      refine (Reads.pure ?_).orReports
      intro ts h
      simpa using h.insert hp hsource hinsert
    · exact .report fun c'' _ ↦ .pure rfl
  · exact (Reads.pure fun _ _ ↦ rfl).orReports

/-- If nothing has been reported, the parameters are those that were read, with room between
them. -/
theorem ReadsOrReports.parameters (g : Grammar) {c : Cursor} :
    ReadsOrReports (parameters g) c fun ps ts ↦ ps.ReadAs (textOf ts) := by
  unfold Production.parameters
  split_ifs
  · refine .loop (I := fun (ps : Parameters) ts ↦ ps.ReadAs (textOf ts)) (fun ps c' ↦ ?_)
      Parameters.readAs_empty
    refine (parameter? g ps c').mono fun o us h ↦ ?_
    cases o with
    | some ps' => exact h
    | none => exact h
  · exact (Reads.pure Parameters.readAs_empty).orReports

end Production

end TransportDeck
