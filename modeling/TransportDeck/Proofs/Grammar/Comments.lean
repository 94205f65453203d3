import TransportDeck.Proofs.Grammar.ParameterRuns
import TransportDeck.Proofs.Grammar.Records
import TransportDeck.Proofs.Node.Comments

/-!
# The comments that are read

Every comment token goes into one layout of the record, and all layouts keep their comments in
order.  What is read therefore holds the comments of its tokens as they are written, but for those
of a geometry, which come in the order of the walk over it.
-/

namespace TransportDeck

variable {ts : List Token} {l : Option Layout}

/-- The layout of tokens holds the comments among them. -/
theorem layoutComments_layoutOf (ts : List Token) :
    layoutComments (layoutOf ts) = commentsOf ts := by
  cases ts with
  | nil => rfl
  | cons t ts => exact (Layout.comments_foldl_pushToken _ _).trans (List.nil_append _)

/-- A mark between operands holds its own comments and those of the tokens behind it. -/
theorem comments_markedLayout (mark : Layout) (ts : List Token) :
    (markedLayout mark ts).comments = mark.comments ++ commentsOf ts := by
  rw [markedLayout, Layout.comments_append, Layout.comments_getD, layoutComments_layoutOf]

/-! ## Geometries -/

theorem Field.comments_asSignedIdentifier (f : Field) :
    f.asSignedIdentifier.comments = f.comments := by
  simp [comments, asSignedIdentifier]

theorem Field.comments_asSignedFraction (f : Field) : f.asSignedFraction.comments = f.comments := by
  simp [comments, asSignedFraction]

/-- A field that is read from a token holds the comments of the layout behind it. -/
theorem Field.comments_of_parse? {token : String} {kind : ValueKind} {f : Field}
    (h : parse? token kind l = some f) : f.comments = layoutComments l :=
  congrArg layoutComments (parsed_of_parse? h).layout_eq

/-- A run that goes on from the number before it holds no comments. -/
theorem Shorthand.GoesOn.comments_eq {s : Shorthand} {before : Option Value} {token : String}
    (h : s.GoesOn before token) : s.comments = [] := by
  obtain ⟨id, h | h⟩ := h
  · exact (notes_of_copies h).comments_eq
  · exact (notes_of_multiply h).comments_eq

/-- The tree and the layout behind it hold all comments of the tokens. -/
theorem GeometryTree.Parsed.written_eq {level : PhraseLevel} {room : Nat} {tree : GeometryTree}
    (h : tree.Parsed level room ts l) : tree.written ++ layoutComments l = commentsOf ts := by
  induction h with
  | leaf kind value =>
    rw [written, Field.comments_asSignedIdentifier, Field.comments_of_parse? value,
      layoutComments_layoutOf, commentsOf_cons_solid (Token.isLayout_of_isNumber kind)]
    rfl
  | group mark _ _ mark' _ ih =>
    simp [written, comments_markedLayout, Layout.comments_getD, layoutComments_layoutOf,
      commentsOf_cons_solid (Token.isLayout_of_kind mark rfl),
      commentsOf_cons_solid (Token.isLayout_of_kind mark' rfl), ← ih]
  | complement mark _ _ ih =>
    simp [written, comments_markedLayout,
      commentsOf_cons_solid (Token.isLayout_of_kind mark rfl), ← ih]
  | run _ token goesOn _ ih =>
    simp [written, Layout.comments_getD, goesOn.comments_eq, layoutComments_layoutOf,
      commentsOf_cons_solid (Token.isLayout_of_kind token rfl), ← ih]
  | intersection _ _ ihl ihr => simp [written, Layout.comments_getD, ← ihl, ← ihr]
  | union _ mark _ _ ihl ihr =>
    simp [written, comments_markedLayout, Layout.comments_getD,
      commentsOf_cons_solid (Token.isLayout_of_kind mark rfl), ← ihl, ← ihr]
  | ofGroup _ ih | ofFactor _ ih | ofIntersection _ ih => exact ih

/-! ## Values and classifiers -/

namespace Production

variable {c : Cursor} {g : Grammar} {t : Token} {us : List Token}

/-- Layout is read with the comments in it. -/
theorem comments_layout : Reads layout c fun l ts ↦ layoutComments l = commentsOf ts := by
  refine reads_layout.mono ?_
  rintro _ ts ⟨rfl, -⟩
  exact layoutComments_layoutOf ts

/-- A token that is no layout brings no comment. -/
theorem comments_advance (hrest : c.rest = t :: us) (ht : t.isLayout = false) :
    Reads advance c fun _ ts ↦ commentsOf ts = [] := by
  refine (Reads.advance hrest).mono ?_
  rintro _ _ rfl
  exact commentsOf_cons_solid ht []

/-- A value holds the comments behind it. -/
theorem comments_value (kind : ValueKind) (expected : String) :
    Reads (value kind expected) c fun f ts ↦ f.comments = commentsOf ts := by
  refine .current ?_
  split
  · exact .unexpected
  next t ht =>
  obtain ⟨hhead, haccepts⟩ := Option.filter_eq_some_iff.mp ht
  obtain ⟨us, hrest⟩ := List.head?_eq_some_iff.mp hhead
  split
  · exact .unexpected
  refine (comments_advance hrest (Token.isLayout_of_accepts haccepts)).bind fun _ ts c' _ hts ↦ ?_
  refine .map (comments_layout.mono fun l ls hl ↦ ?_)
  rw [commentsOf_append, hts, List.nil_append, ← hl]
  rfl

/-- A word alone has no comments behind it. -/
theorem comments_word? {p : Token → Bool} (hp : ∀ t, p t = true → t.isLayout = false) :
    Reads (word? p) c fun _ ts ↦ commentsOf ts = [] := by
  refine .current ?_
  split
  · next t ht =>
    obtain ⟨hhead, hpt⟩ := Option.filter_eq_some_iff.mp ht
    obtain ⟨us, hrest⟩ := List.head?_eq_some_iff.mp hhead
    exact (comments_advance hrest (hp t hpt)).bind fun _ ts c' _ hts ↦
      .pure (by rwa [List.append_nil])
  · exact .pure rfl

theorem comments_nameNumber? : Reads nameNumber? c fun _ ts ↦ commentsOf ts = [] := by
  refine .current ?_
  split
  · exact .pure rfl
  next t ht =>
  obtain ⟨hhead, hnumber⟩ := Option.filter_eq_some_iff.mp ht
  obtain ⟨us, hrest⟩ := List.head?_eq_some_iff.mp hhead
  have hsolid : t.isLayout = false := Token.isLayout_of_isNumber (Bool.and_eq_true_iff.mp hnumber).1
  split
  · exact (comments_advance hrest hsolid).bind fun _ ts c' _ hts ↦ .pure (by rwa [List.append_nil])
  · exact .pure rfl

theorem comments_particles? : Reads particles? c fun _ ts ↦ commentsOf ts = [] := by
  refine .currentKind ?_
  split_ifs with hcolon
  swap
  · exact .pure rfl
  obtain ⟨t, hhead, hkind⟩ := Option.map_eq_some_iff.mp (beq_iff_eq.mp hcolon)
  obtain ⟨us, hrest⟩ := List.head?_eq_some_iff.mp hhead
  have hsolid : t.isLayout = false := Token.isLayout_of_kind hkind rfl
  refine .get ((comments_advance hrest hsolid).bind fun _ cs c' _ hcs ↦ ?_)
  refine (Reads.takeWhile _).bind ?_
  rintro taken _ c'' - ⟨rfl, hparticles⟩
  have htaken : commentsOf taken = [] :=
    commentsOf_eq_nil fun t ht ↦ Token.isLayout_of_isParticleToken (hparticles t ht)
  dsimp only
  split
  · exact .pure (by simp [hcs, htaken])
  · exact .throw

/-- A classifier holds the comments behind it. -/
theorem comments_classifier (g : Grammar) :
    Reads (classifier g) c fun cl ts ↦ cl.comments = commentsOf ts := by
  unfold classifier
  split_ifs
  · exact .unexpected
  refine (comments_word? fun _ ↦ Token.isLayout_of_isMark).bind fun modifier ms c₁ _ hms ↦ ?_
  refine (comments_word? fun _ ↦ Token.isLayout_of_isWord).bind fun name ns c₂ _ hns ↦ ?_
  cases name with
  | none => exact .unexpected
  | some name =>
    refine comments_nameNumber?.bind fun number is c₃ _ his ↦ ?_
    refine comments_particles?.bind fun particles ps c₄ _ hps ↦ ?_
    refine comments_layout.bind fun l ls c₅ _ hl ↦ .pure ?_
    simpa [Classifier.comments, hms, hns, his, hps] using hl

/-! ## Lists -/

/-- The lead of a run and the list that it is taken from hold the comments of the list together. -/
theorem comments_leadOf {kind : ShorthandKind} {span : Span} {l : FieldList} {cs : List Comment}
    (h : l.Notes cs) : Reads (leadOf kind span l) c fun r ts ↦
      ts = [] ∧ ∃ before, r.2.Notes before ∧ before ++ r.1.members.flatMap Field.comments = cs := by
  unfold leadOf
  split_ifs
  · exact .pure ⟨rfl, cs, h, List.append_nil cs⟩
  · split
    · next f rest hpop =>
      obtain ⟨before, hrest, hbefore⟩ := h.popField? hpop
      exact .pure ⟨rfl, before, hrest, by rwa [Lead.members, List.flatMap_singleton]⟩
    · exact .throw

/-- A run takes the comments of its lead out of the list and puts them back. -/
theorem comments_pushRun {l : FieldList} {s : Shorthand} {lead : Lead} {before cs ds : List Comment}
    (h : l.Notes before) (hlead : before ++ lead.members.flatMap Field.comments = cs)
    (hs : s.Notes (lead.members.flatMap Field.comments ++ ds)) :
    (l.pushRun s).Notes (cs ++ ds) := by
  have hrun := h.pushRun hs
  rwa [← List.append_assoc, hlead] at hrun

/-- A run of shorthands adds the comments behind it to those of the list. -/
theorem comments_shorthand {kind : ShorthandKind} {l : FieldList} {cs : List Comment}
    (h : l.Notes cs) :
    Reads (shorthand g kind t l) c fun l' ts ↦ l'.Notes (cs ++ commentsOf ts) := by
  unfold shorthand
  split_ifs
  · exact .throw
  have hid := h.takeId
  cases kind with
  | jump =>
    refine comments_layout.bind fun behind ls c' _ hbehind ↦ ?_
    refine Reads.orMalformed.bind ?_
    rintro s _ c'' - ⟨hs, rfl⟩
    refine .pure ?_
    simpa [hbehind] using hid.pushRun (Shorthand.notes_of_jump hs)
  | copies =>
    refine (comments_leadOf hid).bind ?_
    rintro ⟨lead, l'⟩ _ c₁ - ⟨rfl, before, hbefore, hlead⟩
    refine comments_layout.bind fun behind ls c₂ _ hbehind ↦ ?_
    refine Reads.orMalformed.bind ?_
    rintro s _ c₃ - ⟨hs, rfl⟩
    refine .pure ?_
    simpa [hbehind] using comments_pushRun hbefore hlead (Shorthand.notes_of_copies hs)
  | multiply =>
    refine (comments_leadOf hid).bind ?_
    rintro ⟨lead, l'⟩ _ c₁ - ⟨rfl, before, hbefore, hlead⟩
    refine comments_layout.bind fun behind ls c₂ _ hbehind ↦ ?_
    refine Reads.orMalformed.bind ?_
    rintro s _ c₃ - ⟨hs, rfl⟩
    refine .pure ?_
    simpa [hbehind] using comments_pushRun hbefore hlead (Shorthand.notes_of_multiply hs)
  | linear | logarithmic =>
    refine (comments_leadOf hid).bind ?_
    rintro ⟨lead, l'⟩ _ c₁ - ⟨rfl, before, hbefore, hlead⟩
    refine comments_layout.bind fun mid ms c₂ _ hmid ↦ ?_
    refine (comments_value _ _).bind fun last vs c₃ _ hlast ↦ ?_
    refine Reads.orMalformed.bind ?_
    rintro s _ c₄ - ⟨hs, rfl⟩
    have hnotes := Shorthand.notes_of_interpolate rfl hs
    rw [List.append_assoc] at hnotes
    refine .pure ?_
    simpa [hmid, hlast] using comments_pushRun hbefore hlead hnotes

/-- An item adds the comments behind it to those of the list. -/
theorem comments_item? {preferred : ValueKind} {l : FieldList} {cs : List Comment}
    (h : l.Notes cs) :
    Reads (item? g preferred l) c fun o ts ↦ ∀ l' ∈ o, l'.Notes (cs ++ commentsOf ts) := by
  have pushed {kind : ValueKind} {expected : String} :
      Reads (do return some (l.pushField (← value kind expected))) c fun o ts ↦
        ∀ l' ∈ o, l'.Notes (cs ++ commentsOf ts) := by
    refine .map ((comments_value _ _).mono fun f ts hf ↦ ?_)
    rintro _ ⟨⟩
    exact hf ▸ h.pushField f
  refine .current ?_
  split
  · exact .pure (by simp)
  next t hhead =>
  obtain ⟨us, hrest⟩ := List.head?_eq_some_iff.mp hhead
  split
  · exact pushed
  · exact pushed
  · next kind hkind =>
    have hsolid : t.isLayout = false := Token.isLayout_of_kind hkind rfl
    refine (comments_advance hrest hsolid).bind fun _ ts c' _ hts ↦ ?_
    refine .map ((comments_shorthand h).mono fun l' us hl' ↦ ?_)
    rintro _ ⟨⟩
    simpa [hts] using hl'
  · refine .get ?_
    split_ifs
    · exact .pure (by simp)
    · exact pushed
    · exact .pure (by simp)

/-- A list of values holds the comments among its tokens, in their order. -/
theorem comments_values (g : Grammar) (preferred : ValueKind) :
    Reads (values g preferred) c fun l ts ↦ l.comments = commentsOf ts := by
  refine .map ((Reads.loop (I := fun l ts ↦ l.ReadAs (textOf ts) ∧ l.Notes (commentsOf ts)) ?_
    ⟨FieldList.readAs_empty, FieldList.notes_empty⟩).mono fun l ts h ↦ h.2.comments_detachTail h.1)
  rintro l ts c' - ⟨hread, hnotes⟩
  refine ((Reads.item? hread).and (comments_item? hnotes)).mono fun o us ho ↦ ?_
  cases o with
  | some l' => exact ⟨by simpa using ho.1, by simpa using ho.2 l' rfl⟩
  | none => exact ho.1

/-- A material holds the comments among its tokens, in their order. -/
theorem comments_nuclides : Reads nuclides c fun ns ts ↦ ns.comments = commentsOf ts := by
  refine (Reads.loop (I := fun ns ts ↦ ns.comments = commentsOf ts) ?_ rfl).bind fun ns ts
    c' _ hns ↦ ?_
  · intro ns ts c' _ hns
    refine .current ?_
    split_ifs
    · refine (comments_value _ _).bind fun id is c₁ _ hid ↦ ?_
      refine .map ((comments_value _ _).mono fun amount as hamount ↦ ?_)
      have hpair : (Nuclide.of id amount).comments = commentsOf is ++ commentsOf as := by
        rw [Nuclide.comments, Nuclide.of, Field.comments_asSignedFraction, hid, hamount]
      change (ns.pairs ++ [Nuclide.of id amount]).flatMap Nuclide.comments = _
      rw [List.flatMap_append, List.flatMap_singleton, hpair, commentsOf_append,
        commentsOf_append, ← hns]
      rfl
    · exact .pure rfl
  · split_ifs
    · exact .unexpected
    · exact .pure (by rwa [List.append_nil])

/-! ## Parameters -/

/-- A separator holds the comments behind it. -/
theorem comments_separator? (g : Grammar) :
    Reads (separator? g) c fun l ts ↦ layoutComments l = commentsOf ts := by
  refine .currentKind ?_
  split_ifs with hequals
  · obtain ⟨t, hhead, hkind⟩ := Option.map_eq_some_iff.mp (beq_iff_eq.mp hequals)
    obtain ⟨us, hrest⟩ := List.head?_eq_some_iff.mp hhead
    have hsolid : t.isLayout = false := Token.isLayout_of_kind hkind rfl
    refine (comments_advance hrest hsolid).bind fun _ ts c' _ hts ↦ ?_
    refine .map (comments_layout.mono fun l ls hl ↦ ?_)
    simp [layoutComments, Layout.comments_getD, hts, ← hl]
  · exact .unexpected
  · exact .pure rfl

/-- A parameter holds the comments among its tokens, in their order. -/
theorem comments_parameter (g : Grammar) :
    Reads (parameter g) c fun p ts ↦ p.comments = commentsOf ts := by
  refine (comments_classifier g).bind fun cl cs c₁ _ hcl ↦ ?_
  refine (comments_separator? g).bind fun separator ss c₂ _ hseparator ↦ ?_
  refine (comments_values g .int).bind fun vs ts c₃ _ hvs ↦ ?_
  split_ifs
  · exact .unexpected
  · refine .pure ?_
    simp [Parameter.comments, hcl, hseparator, hvs]

end Production

/-- The comments of parameters are those of the one after the other. -/
theorem Parameters.Lists.comments_eq {ps : Parameters}
    (h : ps.Lists (fun p us ↦ p.comments = commentsOf us) ts) : ps.comments = commentsOf ts := by
  obtain ⟨raws, tss, rfl, -, rfl, hraws⟩ := h
  refine (comments_closeAll raws).trans ?_
  induction hraws with
  | nil => rfl
  | cons head _ ih => rw [List.flatMap_cons, List.flatten_cons, commentsOf_append, head, ih]

/-- Unless a parameter is reported, the parameters hold the comments among their tokens. -/
theorem Production.comments_parameters (g : Grammar) {c : Cursor} :
    ReadsOrReports (parameters g) c fun ps ts ↦ ps.comments = commentsOf ts :=
  (lists_parameters (fun _ ↦ comments_parameter g) c).mono fun _ _ hps ↦ hps.comments_eq

/-!
## The comments of records

A record lists every comment of its text as often as it is written.  They come in the order of the
text but for the comments of a geometry: a comment behind the first operand of a branch is listed
before those of the operand.
-/

namespace Record

/-- Only a geometry may list its comments in another order. -/
def InOrder : Record → Prop
  | cell c => c.geometry.InOrder
  | surface _ | data _ | read _ | verbatim _ => True

/-- The comments of the record are those of the tokens.  They are in order where no comment of a
geometry comes too early, and only there if the comments can be told apart. -/
structure ListsComments (r : Record) (ts : List Token) : Prop where
  perm : r.comments.Perm (commentsOf ts)
  eq_of_inOrder : r.InOrder → r.comments = commentsOf ts
  inOrder_of_eq : (commentsOf ts).Nodup → r.comments = commentsOf ts → r.InOrder

variable {r : Record} {ts : List Token}

/-- A record lists the comments among its tokens if it holds them in order. -/
theorem listsComments_of_eq (h : r.comments = commentsOf ts) (horder : r.InOrder) :
    r.ListsComments ts :=
  ⟨.of_eq h, fun _ ↦ h, fun _ _ ↦ horder⟩

/-- Among the other comments stand those of a geometry. -/
theorem listsComments_of_tree {tree : GeometryTree} (front back : List Comment)
    (horder : r.InOrder ↔ tree.InOrder) (hcomments : r.comments = front ++ tree.walked ++ back)
    (hts : commentsOf ts = front ++ tree.written ++ back) :
    r.ListsComments ts := by
  refine ⟨?_, fun h ↦ ?_, fun hnodup h ↦ ?_⟩
  · rw [hcomments, hts]
    exact (tree.walked_perm.append_left front).append_right back
  · rw [hcomments, hts, (horder.mp h).walked_eq]
  · rw [hts] at hnodup
    rw [hcomments, hts] at h
    have hwritten : tree.written.Nodup := hnodup.of_append_left.of_append_right
    exact horder.mpr
      (GeometryTree.inOrder_of_walked_eq hwritten
        (List.append_cancel_left (List.append_cancel_right h)))

end Record

namespace Production

variable {c : Cursor}

/-- A density holds the comments behind it, if there is one. -/
theorem comments_density? (material : Field) :
    Reads (density? material) c fun o ts ↦ fieldComments o = commentsOf ts := by
  unfold density?
  split_ifs
  · exact .pure rfl
  · exact .map ((comments_value _ _).mono fun f ts hf ↦
      (Field.comments_asSignedFraction f).trans hf)

/-- A cell lists the comments among its tokens, in another order at most. -/
theorem listsComments_cell (g : Grammar) :
    ReadsOrReports (cell g) c fun r ts ↦ (Record.cell r).ListsComments ts := by
  refine comments_layout.bindReports fun leading ls c₁ _ _ hleading ↦ ?_
  refine (comments_value _ _).bindReports fun number ns c₂ _ _ hnumber ↦ ?_
  refine Reads.refuseLike.bindReports ?_
  rintro _ _ c₃ - - rfl
  refine (comments_value _ _).bindReports fun material ms c₄ _ _ hmaterial ↦ ?_
  refine (comments_density? material).bindReports fun density ds c₅ _ _ hdensity ↦ ?_
  refine (reads_geometry g).bindReports ?_
  rintro geometry gs c₆ hrun - ⟨tree, htree, hparsed⟩
  have hc₆ := settles_geometry g c₅ geometry c₆ hrun
  refine .parameters_finish hc₆ (comments_parameters g) fun ps hps ↦ ?_
  refine Record.listsComments_of_tree (commentsOf (ls ++ ns ++ ms ++ ds))
    (layoutComments geometry.trailing ++ ps.comments) htree.inOrder_iff ?_ ?_
  · simp [Record.comments, CellRecord.comments, CellRecord.geometryComments, hleading, hnumber,
      hmaterial, hdensity, htree.comments_eq]
  · simp [← hparsed.written_eq, hps]

theorem comments_surfaceNumber : Reads surfaceNumber c fun r ts ↦ r.2.comments = commentsOf ts := by
  refine .current ?_
  split
  · next t ht =>
    obtain ⟨hhead, hmarked⟩ := Option.filter_eq_some_iff.mp ht
    obtain ⟨us, hrest⟩ := List.head?_eq_some_iff.mp hhead
    have hkind : t.kind = .number := beq_iff_eq.mp (Bool.and_eq_true_iff.mp hmarked).1
    refine ((comments_advance hrest (Token.isLayout_of_kind hkind rfl)).bind fun _ ms c₁ _ hms ↦
      ?_ : Reads (markedNumber t) c fun r ts ↦ r.2.comments = commentsOf ts).map
    refine comments_layout.bind fun behind ls c₂ _ hbehind ↦ ?_
    split
    · next number mark hnumber hmark =>
      refine .pure ?_
      rw [List.append_nil, commentsOf_append, hms, ← hbehind]
      exact Field.comments_of_parse? hnumber
    · exact .throw
  · refine (comments_word? fun _ ↦ Token.isLayout_of_isMark).bind fun mark ms c₁ _ hms ↦ ?_
    exact .map ((comments_value _ _).mono fun number ns hnumber ↦ by
      rw [commentsOf_append, hms, ← hnumber]; rfl)

theorem comments_transform? : Reads transform? c fun o ts ↦ fieldComments o = commentsOf ts := by
  refine .currentKind ?_
  split_ifs
  · exact .map (comments_value _ _)
  · exact .pure rfl

theorem comments_surfaceType : Reads surfaceType c fun f ts ↦ f.comments = commentsOf ts := by
  refine .currentKind ?_
  split_ifs
  · exact comments_value _ _
  · exact .unexpected

/-- A surface lists the comments among its tokens in their order. -/
theorem listsComments_surface (g : Grammar) :
    ReadsOrReports (surface g) c fun r ts ↦ (Record.surface r).ListsComments ts := by
  refine comments_layout.bindReports fun leading ls c₁ _ _ hleading ↦ ?_
  refine comments_surfaceNumber.bindReports ?_
  rintro ⟨mark, number⟩ ns c₂ - - hnumber
  refine comments_transform?.bindReports fun transform rs c₃ _ _ htransform ↦ ?_
  refine comments_surfaceType.bindReports fun type ts c₄ hrun _ htype ↦ ?_
  have hc₄ := settles_surfaceType c₃ type c₄ hrun
  refine (comments_values g .real).bindReports fun constants vs c₅ hrun _ hconstants ↦ ?_
  have hc₅ := keeps_values g .real c₄ constants c₅ hc₄ hrun
  refine (Reads.finish_of_isSettled hc₅).bindReports ?_
  rintro _ _ c₆ - - ⟨rfl, -⟩
  refine (Reads.pure ?_).orReports
  refine Record.listsComments_of_eq ?_ trivial
  simp [Record.comments, SurfaceRecord.comments, hleading, hnumber, htransform, htype, hconstants]

theorem comments_keyword? (g : Grammar) :
    Reads (keyword? g) c fun o ts ↦ fieldComments o = commentsOf ts := by
  refine .currentKind (.get ?_)
  split_ifs
  · exact .map (comments_value _ _)
  · exact .pure rfl

/-- The body of a data record holds the comments among its tokens, in their order. -/
theorem comments_body (g : Grammar) (cl : Classifier) :
    Reads (body g cl) c fun b ts ↦ b.comments = commentsOf ts := by
  refine .current ?_
  split_ifs
  · exact .map comments_nuclides
  · exact .map (comments_values g .real)
  · exact .pure rfl

/-- A data record lists the comments among its tokens in their order. -/
theorem listsComments_data (g : Grammar) :
    ReadsOrReports (data g) c fun r ts ↦ (Record.data r).ListsComments ts := by
  refine comments_layout.bindReports fun leading ls c₁ _ _ hleading ↦ ?_
  refine (comments_classifier g).bindReports fun cl cs c₂ hrun _ hcl ↦ ?_
  have hc₂ := settles_classifier g c₁ cl c₂ hrun
  refine (comments_keyword? g).bindReports fun keyword ks c₃ hrun _ hkeyword ↦ ?_
  have hc₃ := keeps_keyword? g c₂ keyword c₃ hc₂ hrun
  refine (comments_body g cl).bindReports fun body bs c₄ hrun _ hbody ↦ ?_
  have hc₄ := keeps_body g cl c₃ body c₄ hc₃ hrun
  refine .parameters_finish hc₄ (comments_parameters g) fun ps hps ↦
    Record.listsComments_of_eq ?_ trivial
  simp [Record.comments, DataRecord.comments, hleading, hcl, hkeyword, hbody, hps]

/-- A request lists the comments among its tokens in their order. -/
theorem listsComments_read (g : Grammar) :
    ReadsOrReports (read g) c fun r ts ↦ (Record.read r).ListsComments ts := by
  refine comments_layout.bindReports fun leading ls c₁ _ _ hleading ↦ .get ?_
  split_ifs
  · refine (comments_value _ _).bindReports fun keyword ks c₂ hrun _ hkeyword ↦ ?_
    have hc₂ := settles_value _ _ c₁ keyword c₂ hrun
    refine .parameters_finish hc₂ (comments_parameters g) fun ps hps ↦
      Record.listsComments_of_eq ?_ trivial
    simp [Record.comments, ReadRecord.comments, hleading, hkeyword, hps]
  · exact Reads.unexpected.orReports

end Production

namespace Card

/-- A record that is read lists each comment of its text as often as it is written.  The order is
that of the text, but for comments of a cell that stand behind the first operand of a branch while
the operand holds comments itself. -/
theorem listsComments_of_parse {c : Card} {r : Record} (h : c.parse = .ok r)
    (hr : r.isVerbatim = false) :
    ∃ ts, tokenize (Grammar.ofCard c).mode c.text = .ok ts ∧ r.ListsComments ts := by
  obtain hparse | rfl := parse_cases h
  · exact Grammar.exists_tokens (fun _ ↦ .record_of (fun _ ↦ Production.listsComments_cell _)
      (fun _ ↦ Production.listsComments_surface _) (fun _ ↦ Production.listsComments_data _)
      fun _ ↦ Production.listsComments_read _) hparse
  · cases hr

/-- Comments before a value, behind it and behind the record. -/
theorem comments_eq_of_data :
    ∃ (c : Card) (r : Record) (ts : List Token), c.parse = .ok r ∧ r.isVerbatim = false ∧
      tokenize (Grammar.ofCard c).mode c.text = .ok ts ∧ r.comments = commentsOf ts ∧
    commentsOf ts = [⟨"$ a"⟩, ⟨"c b"⟩, ⟨"$ d"⟩] := by
  let c : Card := ⟨.data, ["nps $ a", "c b", "     5 2r $ d"], "deck.i", 1, 0⟩
  obtain ⟨r, hparse, hany⟩ := Except.exists_of_any (x := c.parse)
    (p := fun r ↦ r.data?.isSome) (by decide +kernel)
  cases r with
  | data d =>
    obtain ⟨ts, htokens, hlists⟩ := listsComments_of_parse hparse rfl
    obtain ⟨us, hus, hcomments⟩ := Except.exists_of_any (x := tokenize .data c.text)
      (p := fun ts ↦ commentsOf ts == [⟨"$ a"⟩, ⟨"c b"⟩, ⟨"$ d"⟩]) (by decide +kernel)
    obtain rfl : ts = us := Except.ok.inj (htokens.symm.trans hus)
    exact ⟨c, _, ts, hparse, rfl, htokens, hlists.eq_of_inOrder trivial, beq_iff_eq.mp hcomments⟩
  | _ => cases hany

/-- The walk over three surfaces meets the join with the last of them first. -/
theorem comments_ne_of_intersections :
    ∃ (c : Card) (r : Record) (ts : List Token), c.parse = .ok r ∧ r.isVerbatim = false ∧
      tokenize (Grammar.ofCard c).mode c.text = .ok ts ∧
    r.comments = [⟨"$ b"⟩, ⟨"$ a"⟩] ∧ commentsOf ts = [⟨"$ a"⟩, ⟨"$ b"⟩] := by
  let c : Card := ⟨.cell, ["1 0 -1 $ a", "     -2 $ b", "     -3"], "deck.i", 1, 0⟩
  obtain ⟨r, hparse, hany⟩ := Except.exists_of_any (x := c.parse)
    (p := fun r ↦ !r.isVerbatim && r.comments == [⟨"$ b"⟩, ⟨"$ a"⟩]) (by decide +kernel)
  obtain ⟨ts, htokens, hcomments⟩ := Except.exists_of_any (x := tokenize .cell c.text)
    (p := fun ts ↦ commentsOf ts == [⟨"$ a"⟩, ⟨"$ b"⟩]) (by decide +kernel)
  rw [Bool.and_eq_true, Bool.not_eq_true', beq_iff_eq] at hany
  exact ⟨c, r, ts, hparse, hany.1, htokens, hany.2, beq_iff_eq.mp hcomments⟩

end Card

end TransportDeck
