import TransportDeck.Proofs.Grammar.Lists
import TransportDeck.Proofs.Node.Echo

/-!
# Comments

The comments of a node are those of the layouts that it holds.  Lists hold them in the order in
which they are written, wherever the layout behind an item is kept.  The walk over a geometry meets
a branch before its operands, and so the comments behind the first operand of a branch come before
those of the operand.
-/

namespace TransportDeck

/-- The comments among tokens. -/
def commentsOf (ts : List Token) : List Comment :=
  (ts.filter (·.kind.isComment)).map fun t ↦ ⟨t.text⟩

@[simp] theorem commentsOf_nil : commentsOf [] = [] := rfl

/-- The comments among tokens are listed from the left. -/
@[simp] theorem commentsOf_append (ts us : List Token) :
    commentsOf (ts ++ us) = commentsOf ts ++ commentsOf us := by
  rw [commentsOf, List.filter_append, List.map_append]
  rfl

theorem commentsOf_cons (t : Token) (ts : List Token) :
    commentsOf (t :: ts) = commentsOf [t] ++ commentsOf ts :=
  commentsOf_append [t] ts

/-- A token that is no layout is no comment. -/
theorem commentsOf_cons_solid {t : Token} (h : t.isLayout = false) (ts : List Token) :
    commentsOf (t :: ts) = commentsOf ts := by
  have hkind : t.kind.isComment = false := TokenKind.isComment_of_isLayout h
  rw [commentsOf, List.filter_cons_of_neg (by simp [hkind])]
  rfl

/-- Tokens that are no layout hold no comments. -/
theorem commentsOf_eq_nil {ts : List Token} (h : ∀ t ∈ ts, t.isLayout = false) :
    commentsOf ts = [] := by
  induction ts with
  | nil => rfl
  | cons t ts ih =>
    obtain ⟨ht, hts⟩ := List.forall_mem_cons.mp h
    rw [commentsOf_cons_solid ht, ih hts]

/-! ## Layouts -/

namespace Layout

@[simp] theorem comments_empty : comments .empty = [] := rfl

@[simp] theorem comments_ofLiteral (s : String) : (ofLiteral s).comments = [] := rfl

@[simp] theorem comments_push (l : Layout) (p : Piece) :
    (l.push p).comments = l.comments ++ p.comment?.toList := by
  rw [comments, push, List.filterMap_append]
  cases h : p.comment? <;> simp [comments, h]

@[simp] theorem comments_pushBlanks (l : Layout) (cs : List Char) :
    (l.pushBlanks cs).comments = l.comments := by
  unfold pushBlanks
  split_ifs
  · rfl
  · split
    · next t hlast =>
      obtain ⟨ps, hps⟩ := List.getLast?_eq_some_iff.mp hlast
      simp only [comments, hps, List.dropLast_concat, List.filterMap_append]
      rfl
    · rw [comments_push]
      exact List.append_nil _

@[simp] theorem comments_pushText (l : Layout) (s : String) :
    (l.pushText s).comments = l.comments := by
  unfold pushText
  fun_induction pushParts l (Text.splitWhere (· == '\n') s.toList) with
  | case1 l => rfl
  | case2 l part => rw [comments_pushBlanks]
  | case3 l part rest hne ih =>
    rw [ih, comments_push, comments_pushBlanks]
    exact List.append_nil _

@[simp] theorem comments_pushLiteral (l : Layout) (s : String) :
    (l.pushLiteral s).comments = l.comments :=
  (comments_push _ _).trans (List.append_nil _)

/-- A token adds its comment to the layout, if it is one. -/
theorem comments_pushToken (l : Layout) (t : Token) :
    (l.pushToken t).comments = l.comments ++ commentsOf [t] := by
  have hof : commentsOf [t] = if t.kind.isComment then [⟨t.text⟩] else [] := by
    rw [commentsOf, List.filter_singleton]
    cases t.kind.isComment <;> rfl
  rw [hof]
  unfold pushToken
  cases t.kind <;> simp [TokenKind.isComment, pushComment, Piece.comment?]

/-- A layout that is made of tokens holds their comments in order. -/
theorem comments_foldl_pushToken (l : Layout) (ts : List Token) :
    (ts.foldl pushToken l).comments = l.comments ++ commentsOf ts := by
  induction ts generalizing l with
  | nil => exact (List.append_nil _).symm
  | cons t ts ih =>
    rw [List.foldl_cons, ih, comments_pushToken, List.append_assoc, ← commentsOf_cons]

/-- A piece adds its comment to the layout, if it is one. -/
@[simp] theorem comments_appendPiece (l : Layout) (p : Piece) :
    (l.appendPiece p).comments = l.comments ++ p.comment?.toList := by
  cases p with
  | space t => exact (comments_pushText l t).trans (List.append_nil _).symm
  | _ => exact comments_push l _

@[simp] theorem comments_append (l m : Layout) : (l ++ m).comments = l.comments ++ m.comments := by
  change (m.pieces.foldl appendPiece l).comments = l.comments ++ m.pieces.filterMap Piece.comment?
  generalize m.pieces = ps
  induction ps generalizing l with
  | nil => exact (List.append_nil _).symm
  | cons p ps ih =>
    rw [List.foldl_cons, ih, comments_appendPiece, List.append_assoc, List.filterMap_cons]
    cases p.comment? <;> rfl

theorem comments_getD (l : Option Layout) : (l.getD .empty).comments = layoutComments l := by
  cases l <;> rfl

end Layout

/-! ## Runs -/

namespace Shorthand

variable {id : Nat} {kind : ShorthandKind} {token : String} {l : Option Layout} {s : Shorthand}
  {lead : Lead} {rest : List Field}

/-- A run has no layout in its middle before its last bound is read. -/
theorem midLayout_of_ofToken (h : ofToken id kind token l = .ok s) : s.midLayout = none := by
  unfold ofToken at h
  dsimp only at h
  split_ifs at h
  · exact Except.ok.inj h ▸ rfl
  · split at h
    · exact Except.ok.inj h ▸ rfl
    · cases h

/-- A run that has been read holds these comments; behind an interpolation only its last bound keeps
layout. -/
structure Notes (s : Shorthand) (cs : List Comment) : Prop where
  endLayout_eq : s.kind.isInterpolation = true → s.endLayout = none
  comments_eq : s.comments = cs

/-- Only the layout behind a jump holds comments. -/
theorem notes_of_jump (h : jump id token l = .ok s) : s.Notes (layoutComments l) := by
  obtain ⟨bare, hbare, h⟩ := exists_of_bind_ok h
  obtain ⟨n, -, h⟩ := exists_of_bind_ok h
  obtain rfl := Except.ok.inj h
  have ho := ofToken_ok hbare
  have hinter : bare.kind.isInterpolation = false := by rw [ho.kind_eq]; rfl
  refine ⟨fun hkind ↦ absurd (hinter.symm.trans hkind) Bool.false_ne_true, ?_⟩
  simp [comments, hasLead, ho.kind_eq, ho.endLayout_eq, midLayout_of_ofToken hbare, layoutComments,
    ShorthandKind.isInterpolation]

/-- The value that a lead brings along is the first member of its run. -/
theorem leadComments_withLead (hkind : s.kind ≠ .jump) :
    (if (s.withLead lead rest).hasLead then
      ((s.withLead lead rest).members.head?.map Field.comments).getD []
        else []) = lead.members.flatMap Field.comments := by
  cases lead <;> simp [withLead, hasLead, Lead.members, Lead.isChained, hkind]

/-- A run with a lead holds the comments of its members and of the layout behind them. -/
theorem OfToken.notes_withLead (h : OfToken kind token l s) (hmid : s.midLayout = none)
    (hkind : kind ≠ .jump) (hinter : kind.isInterpolation = false) :
    (s.withLead lead rest).Notes (lead.members.flatMap Field.comments ++ layoutComments l) := by
  have hinter' : (s.withLead lead rest).kind.isInterpolation = false := by
    rw [← h.kind_eq] at hinter
    exact hinter
  refine ⟨fun hk ↦ absurd (hinter'.symm.trans hk) Bool.false_ne_true, ?_⟩
  rw [comments, leadComments_withLead (h.kind_eq ▸ hkind), hinter']
  change _ ++ layoutComments s.midLayout ++ _ ++ layoutComments s.endLayout = _
  rw [hmid, h.endLayout_eq]
  simp [layoutComments]

/-- A repeat holds the comments of its lead and of the layout behind it. -/
theorem notes_of_copies (h : copies id lead token l = .ok s) :
    s.Notes (lead.members.flatMap Field.comments ++ layoutComments l) := by
  obtain ⟨bare, n, v, hbare, -, -, rfl⟩ := exists_of_copies_ok h
  exact (ofToken_ok hbare).notes_withLead (midLayout_of_ofToken hbare) (by decide) rfl

/-- A multiplication holds the comments of its lead and of the layout behind it. -/
theorem notes_of_multiply (h : multiply id lead token l = .ok s) :
    s.Notes (lead.members.flatMap Field.comments ++ layoutComments l) := by
  obtain ⟨bare, f, factor, base, hbare, -, -, -, rfl⟩ := exists_of_multiply_ok h
  exact (ofToken_ok hbare).notes_withLead (midLayout_of_ofToken hbare) (by decide) rfl

/-- An interpolation has layout before its last bound and behind it. -/
theorem notes_of_interpolate {mid : Option Layout} {last : Field}
    (hinter : kind.isInterpolation = true) (h : interpolate id kind lead token mid last = .ok s) :
    s.Notes (lead.members.flatMap Field.comments ++ layoutComments mid ++ last.comments) := by
  obtain ⟨bare, first, finish, points, spacing, hbare, -, -, -, rfl⟩ := exists_of_interpolate_ok h
  have ho := ofToken_ok hbare
  have hkind : bare.kind ≠ .jump := by
    rw [ho.kind_eq]
    rintro rfl
    cases hinter
  have hlead := @leadComments_withLead bare lead
    (points.map (fun x ↦ (Field.new (some (.real x)) lead.kind).withLayout .gap) ++ [last]) hkind
  refine ⟨fun _ ↦ ho.endLayout_eq, ?_⟩
  rw [comments]
  refine (congrArg (· ++ _ ++ _ ++ _) hlead).trans ?_
  simp [withLead, ho.kind_eq, hinter, ho.endLayout_eq, layoutComments,
    List.getLast?_append, List.append_assoc]

/-- The layout that is taken off a run holds the last of its comments. -/
theorem IsRead.comments_setTrailing (h : s.IsRead)
    (hend : s.kind.isInterpolation = true → s.endLayout = none) :
    (s.setTrailing none).comments ++ layoutComments s.trailing? = s.comments := by
  unfold Shorthand.setTrailing trailing?
  split_ifs with hinter
  · obtain ⟨fs, f, hfs, -, hne⟩ := h.exists_bound hinter
    have hhead : s.hasLead = true →
        (fs ++ [f.setLayout none]).head? = s.members.head? := fun hlead ↦
      hfs ▸ head?_setLast (hne hlead)
    have hlead :
      (if s.hasLead then ((fs ++ [f.setLayout none]).head?.map Field.comments).getD [] else []) =
        if s.hasLead then (s.members.head?.map Field.comments).getD [] else [] := by
      split_ifs with hs
      · rw [hhead hs]
      · rfl
    rw [hfs, mapLast_eq]
    change (if s.hasLead then ((fs ++ [f.setLayout none]).head?.map Field.comments).getD []
      else []) ++ _ ++ _ ++ _ ++ _ = _
    rw [hlead, comments, hend hinter, hinter, hfs]
    simp [Field.comments, Field.setLayout, layoutComments]
  · simp [comments, hinter, hasLead, layoutComments]

end Shorthand

/-! ## Lists -/

namespace FieldList

/-- A list that is being read holds these comments. -/
structure Notes (l : FieldList) (cs : List Comment) : Prop where
  runs : ∀ s, .run s ∈ l.items → s.kind.isInterpolation = true → s.endLayout = none
  comments_eq : l.items.flatMap Item.comments = cs

variable {l : FieldList} {cs : List Comment}

theorem notes_empty : empty.Notes [] := ⟨by simp [empty], rfl⟩

/-- Taking a number for a run leaves the comments of a list as they are. -/
theorem Notes.takeId (h : l.Notes cs) : l.takeId.Notes cs := ⟨h.runs, h.comments_eq⟩

/-- A field adds its comments at the end of a list. -/
theorem Notes.pushField (h : l.Notes cs) (f : Field) :
    (l.pushField f).Notes (cs ++ f.comments) := by
  refine ⟨fun s hs ↦ ?_, ?_⟩
  · obtain hs | hs := List.mem_append.mp hs
    · exact h.runs s hs
    · cases List.mem_singleton.mp hs
  · rw [FieldList.pushField, List.flatMap_append, h.comments_eq]
    simp [Item.comments]

/-- A run adds its comments at the end of a list. -/
theorem Notes.pushRun {s : Shorthand} {ds : List Comment} (h : l.Notes cs) (hs : s.Notes ds) :
    (l.pushRun s).Notes (cs ++ ds) := by
  refine ⟨fun s' hs' ↦ ?_, ?_⟩
  · obtain hs' | hs' := List.mem_append.mp hs'
    · exact h.runs s' hs'
    · exact Item.run.inj (List.mem_singleton.mp hs') ▸ hs.endLayout_eq
  · rw [FieldList.pushRun, List.flatMap_append, h.comments_eq, ← hs.comments_eq]
    simp [Item.comments]

/-- The field that is taken out holds the last comments. -/
theorem Notes.popField? {f : Field} {rest : FieldList} (h : l.Notes cs)
    (hpop : l.popField? = some (f, rest)) :
    ∃ before, rest.Notes before ∧ before ++ f.comments = cs := by
  unfold FieldList.popField? at hpop
  split at hpop
  · next g hlast =>
    obtain ⟨rfl, rfl⟩ := Prod.mk.inj (Option.some.inj hpop)
    obtain ⟨items, hitems⟩ := List.getLast?_eq_some_iff.mp hlast
    refine ⟨items.flatMap Item.comments,
      ⟨fun s hs ↦ h.runs s (List.mem_of_mem_dropLast hs), ?_⟩, ?_⟩
    · simp [hitems]
    · rw [← h.comments_eq, hitems, List.flatMap_append]
      simp [Item.comments]
  · cases hpop

/-- Moving the layout behind the last item leaves the comments as they are. -/
theorem Notes.comments_detachTail {text : String} (h : l.Notes cs) (hread : l.ReadAs text) :
    l.detachTail.comments = cs := by
  unfold detachTail
  split
  · next layout hlayout =>
    obtain ⟨i, hlast, htrailing⟩ := Option.bind_eq_some_iff.mp hlayout
    obtain ⟨items, hitems⟩ := List.getLast?_eq_some_iff.mp hlast
    have hi : (i.setTrailing none).comments ++ layoutComments i.trailing? = i.comments := by
      have hmem : i ∈ l.items := List.mem_of_getLast? hlast
      cases i with
      | field f => rfl
      | run s =>
        exact Shorthand.IsRead.comments_setTrailing (hread.isRead.items _ hmem) (h.runs s hmem)
    rw [htrailing] at hi
    have htail : (l.tailOrEmpty ++ layout).comments = layout.comments := by
      rw [Layout.comments_append, tailOrEmpty, hread.no_tail]
      rfl
    rw [mapLastItem, hlast, comments, ← h.comments_eq, hitems, setTail]
    simp [layoutComments, ← hi, htail]
  · rw [comments, hread.no_tail, h.comments_eq]
    exact List.append_nil _

end FieldList

/-! ## Parameters -/

theorem Parameter.comments_closed (p : Parameter) : p.closed.comments = p.comments := by
  have hclose (l : Layout) : l.closeComment.comments = l.comments := by
    unfold Layout.closeComment
    split_ifs
    · exact (Layout.comments_push _ _).trans (List.append_nil _)
    · rfl
  have htail {l : Layout} (hl : l.comments = p.values.tailOrEmpty.comments) :
      (p.setTail l).comments = p.comments := by
    have htail' : layoutComments p.values.tail = l.comments := by
      rw [hl, FieldList.tailOrEmpty, Layout.comments_getD]
    rw [comments, comments, FieldList.comments, FieldList.comments, htail']
    rfl
  unfold closed
  split_ifs
  · exact htail (hclose _)
  · exact htail (Layout.comments_pushText _ _)
  · rfl

theorem Parameters.comments_closeAll (ps : List Parameter) :
    (closeAll ps).flatMap Parameter.comments = ps.flatMap Parameter.comments := by
  rw [List.flatMap_def, List.flatMap_def, map_closeAll Parameter.comments_closed]

/-! ## Geometries -/

namespace GeometryTree

/-- The comments in the order in which they are written. -/
def written : GeometryTree → List Comment
  | leaf f => f.comments
  | run s => s.comments
  | binary _ l mark r => l.written ++ mark.comments ++ r.written
  | complement mark t => mark.comments ++ t.written
  | group opening t closing => opening.comments ++ t.written ++ closing.comments

/-- The comments in the order of a walk that meets a branch before its operands. -/
def walked : GeometryTree → List Comment
  | leaf f => f.comments
  | run s => s.comments
  | binary _ l mark r => mark.comments ++ (l.walked ++ r.walked)
  | complement mark t => mark.comments ++ t.walked
  | group opening t closing => opening.comments ++ closing.comments ++ t.walked

/-- No comment stands behind the first operand of a branch if the operand holds one itself. -/
def InOrder : GeometryTree → Prop
  | leaf _ | run _ => True
  | binary _ l mark r => (mark.comments = [] ∨ l.walked = []) ∧ l.InOrder ∧ r.InOrder
  | complement _ t => t.InOrder
  | group _ t closing => (closing.comments = [] ∨ t.walked = []) ∧ t.InOrder

/-- The walk through a geometry meets every comment, in another order at most. -/
theorem walked_perm (tree : GeometryTree) : tree.walked.Perm tree.written := by
  induction tree with
  | leaf | run => exact .refl _
  | binary op l mark r ihl ihr =>
    rw [walked, written, ← List.append_assoc]
    exact (List.perm_append_comm.trans (ihl.append_right _)).append ihr
  | complement mark t ih => exact ih.append_left _
  | group opening t closing ih =>
    rw [walked, written, List.append_assoc, List.append_assoc]
    exact (List.perm_append_comm.trans (ih.append_right _)).append_left _

theorem written_eq_nil {tree : GeometryTree} (h : tree.walked = []) : tree.written = [] :=
  (h ▸ tree.walked_perm).nil_eq.symm

/-- If comments stand in order, the walk meets them as they are written. -/
theorem InOrder.walked_eq {tree : GeometryTree} (h : tree.InOrder) :
    tree.walked = tree.written := by
  induction tree with
  | leaf | run => rfl
  | binary op l mark r ihl ihr =>
    obtain ⟨hl | hl, hleft, hright⟩ := h
    · rw [walked, written, hl, ihl hleft, ihr hright, List.append_nil, List.nil_append]
    · rw [walked, written, hl, written_eq_nil hl, ihr hright, List.nil_append, List.nil_append]
  | complement mark t ih => rw [walked, written, ih h]
  | group opening t closing ih =>
    obtain ⟨ht | ht, hinner⟩ := h
    · rw [walked, written, ht, ih hinner, List.append_nil, List.append_nil]
    · rw [walked, written, ht, written_eq_nil ht, List.append_nil, List.append_nil]

/-- Lists without a common element commute only if one of them is empty. -/
theorem nil_of_append_eq {α : Type} {xs ys zs : List α} (hdisjoint : zs.Disjoint xs)
    (h : xs ++ ys = zs ++ xs) : xs = [] ∨ zs = [] := by
  cases xs with
  | nil => exact .inl rfl
  | cons x xs =>
    cases zs with
    | nil => exact .inr rfl
    | cons z zs =>
      obtain ⟨rfl, -⟩ := List.cons.inj h
      exact absurd List.mem_cons_self (hdisjoint List.mem_cons_self)

/-- If no comment comes twice, the order of the walk is the written one only if it has to be. -/
theorem inOrder_of_walked_eq {tree : GeometryTree} (hnodup : tree.written.Nodup)
    (h : tree.walked = tree.written) :
    tree.InOrder := by
  induction tree with
  | leaf | run => trivial
  | binary op l mark r ihl ihr =>
    rw [written] at hnodup
    rw [walked, written, ← List.append_assoc] at h
    obtain ⟨hleft, hright⟩ := List.append_inj h (by simp [l.walked_perm.length_eq, Nat.add_comm])
    obtain ⟨hfirst, hnodupr, -⟩ := List.nodup_append'.mp hnodup
    obtain ⟨hnodupl, -, hdisjoint⟩ := List.nodup_append'.mp hfirst
    obtain hmark | hl := nil_of_append_eq hdisjoint hleft
    · rw [hmark, List.nil_append, List.append_nil] at hleft
      exact ⟨.inl hmark, ihl hnodupl hleft, ihr hnodupr hright⟩
    · have hwalked : l.walked = [] := (hl ▸ l.walked_perm).eq_nil
      exact ⟨.inr hwalked, ihl hnodupl (hwalked.trans hl.symm), ihr hnodupr hright⟩
  | complement mark t ih => exact ih (List.nodup_append'.mp hnodup).2.1 (List.append_cancel_left h)
  | group opening t closing ih =>
    rw [written, List.append_assoc] at hnodup
    rw [walked, written, List.append_assoc, List.append_assoc] at h
    have hinner := List.append_cancel_left h
    obtain ⟨hnodupt, -, hdisjoint⟩ := List.nodup_append'.mp (List.nodup_append'.mp hnodup).2.1
    obtain hclosing | ht := nil_of_append_eq hdisjoint hinner
    · rw [hclosing, List.nil_append, List.append_nil] at hinner
      exact ⟨.inl hclosing, ih hnodupt hinner⟩
    · have hwalked : t.walked = [] := (ht ▸ t.walked_perm).eq_nil
      exact ⟨.inr hwalked, ih hnodupt (hwalked.trans ht.symm)⟩

end GeometryTree

/-- What is written behind the first operand of a branch. -/
def Branch.behindFirst (b : Branch) : Option Layout :=
  if b.op.isBinary then some b.opLayout else b.closing

namespace Geometry

/-- The comments below a place, in the order of the walk. -/
def commentsFrom (g : Geometry) (id : Nat) : List Comment :=
  (g.walkFrom g.size id).flatMap fun i ↦ ((g.entry? i).map entryComments).getD []

/-- No comment stands behind the first operand of a branch if there is one in the operand. -/
def InOrder (g : Geometry) : Prop :=
  ∀ b, .branch b ∈ g.entries → layoutComments b.behindFirst = [] ∨ g.commentsFrom b.left = []

variable {g : Geometry} {id : Nat} {tree : GeometryTree} {ids : List Nat}

/-- The walk from a place meets the comments of the tree that is there. -/
theorem Holds.walked_eq (h : g.Holds id tree ids) {fuel : Nat} (hfuel : tree.depth ≤ fuel) :
    ((g.walkFrom fuel id).flatMap fun i ↦ ((g.entry? i).map entryComments).getD []) =
      tree.walked := by
  induction h generalizing fuel with
  | leaf entry | run entry =>
    obtain ⟨n, rfl⟩ : ∃ n, fuel = n + 1 :=
      ⟨fuel - 1, by simp only [GeometryTree.depth] at hfuel; omega⟩
    simp [walkFrom, entry, entryComments, GeometryTree.walked]
  | @binary id l r op mark left right is js entry isBinary _ _ ihl ihr =>
    simp only [GeometryTree.depth] at hfuel
    obtain ⟨n, rfl⟩ : ∃ n, fuel = n + 1 := ⟨fuel - 1, by omega⟩
    have hl := @ihl n (by omega)
    have hr := @ihr n (by omega)
    simp [walkFrom, entry, entryComments, GeometryTree.walked,
      Branch.binary, layoutComments, hl, hr]
  | complement entry _ ih =>
    simp only [GeometryTree.depth] at hfuel
    obtain ⟨n, rfl⟩ : ∃ n, fuel = n + 1 := ⟨fuel - 1, by omega⟩
    have hc := @ih n (by omega)
    simp [walkFrom, entry, entryComments, GeometryTree.walked,
      Branch.complement, layoutComments, hc]
  | group entry _ ih =>
    simp only [GeometryTree.depth] at hfuel
    obtain ⟨n, rfl⟩ : ∃ n, fuel = n + 1 := ⟨fuel - 1, by omega⟩
    have hc := @ih n (by omega)
    simp [walkFrom, entry, entryComments, GeometryTree.walked, Branch.group, layoutComments, hc]

/-- The comments that are found from a place are those of the walk, none of them twice. -/
theorem Holds.commentsFrom_eq (h : g.Holds id tree ids) (hnodup : ids.Nodup) :
    g.commentsFrom id = tree.walked :=
  h.walked_eq (h.depth_le_size hnodup)

/-- A branch keeps the order of its comments. -/
def KeepsOrder (g : Geometry) (i : Nat) : Prop :=
  ∀ b, g.entry? i = some (.branch b) → layoutComments b.behindFirst =
    [] ∨ g.commentsFrom b.left = []

/-- A branch keeps the order if nothing is said behind its first operand, or nothing in it. -/
theorem keepsOrder_iff {b : Branch} (entry : g.entry? id = some (.branch b)) :
    g.KeepsOrder id ↔ layoutComments b.behindFirst = [] ∨ g.commentsFrom b.left = [] := by
  simp [KeepsOrder, entry]

/-- The comments of a tree stand in order if and only if each of its branches keeps the order. -/
theorem Holds.inOrder_iff (h : g.Holds id tree ids) (hnodup : ids.Nodup) :
    tree.InOrder ↔ ∀ i ∈ ids, g.KeepsOrder i := by
  induction h with
  | leaf entry | run entry => simp [GeometryTree.InOrder, KeepsOrder, entry]
  | @binary id l r op mark left right is js entry isBinary atLeft atRight ihl ihr =>
    obtain ⟨hoperands, -, -⟩ := List.nodup_append'.mp hnodup
    obtain ⟨hl, hr, -⟩ := List.nodup_append'.mp hoperands
    rw [List.forall_mem_append, List.forall_mem_append, List.forall_mem_singleton, ← ihl hl,
      ← ihr hr, keepsOrder_iff entry, Branch.binary, atLeft.commentsFrom_eq hl,
      Branch.behindFirst, if_pos isBinary]
    exact and_comm
  | complement entry _ ih =>
    rw [List.forall_mem_append, List.forall_mem_singleton, ← ih (List.nodup_append'.mp hnodup).1,
      keepsOrder_iff entry]
    exact ⟨fun h ↦ ⟨h, .inl rfl⟩, And.left⟩
  | group entry below ih =>
    have his := (List.nodup_append'.mp hnodup).1
    rw [List.forall_mem_append, List.forall_mem_singleton, ← ih his, keepsOrder_iff entry,
      Branch.group, below.commentsFrom_eq his]
    exact and_comm

namespace IsTree

variable (h : g.IsTree tree)
include h

/-- The comments of a geometry are those of its tree, and those behind it. -/
theorem comments_eq : g.comments = tree.walked ++ layoutComments g.trailing := by
  rw [← h.holds.commentsFrom_eq List.nodup_range]
  rfl

/-- The order of a geometry is that of its tree. -/
theorem inOrder_iff : g.InOrder ↔ tree.InOrder := by
  rw [h.holds.inOrder_iff List.nodup_range, InOrder]
  constructor
  · intro hall i _ b hb
    exact hall b (Array.mem_of_getElem? hb)
  · intro hall b hb
    obtain ⟨i, hi, heq⟩ := Array.mem_iff_getElem.mp hb
    exact hall i (List.mem_range.mpr hi) b (Array.getElem?_eq_some_iff.mpr ⟨hi, heq⟩)

end IsTree

end Geometry

end TransportDeck
