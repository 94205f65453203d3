import TransportDeck.Proofs.Grammar.Records
import TransportDeck.Proofs.Region.Origins

/-!
# Editing sessions

The region of a cell may be kept while the cell is edited further, and what was kept may be combined
and used at any time later.  A region that was kept before the geometry was written can name an
entry that the writing has put in parentheses since; next to a region that names the parentheses it
is written into the same entry.  Where different origins lead to different entries, every writing
gives a tree that describes the region.
-/

namespace TransportDeck

/-- The operators that join two regions. -/
inductive Joint where
  | and
  | or
deriving Repr, DecidableEq

def Joint.op : Joint → RegionOp
  | and => .and
  | or => .or

theorem Joint.op_ne_complement (j : Joint) : j.op ≠ .complement := by cases j <;> decide

/-- How to build a region from regions that were kept and from new ones. -/
inductive Recipe where
  | kept (i : Nat)
  | surface (signed : Int)
  | outsideCell (number : Int)
  | combine (j : Joint) (left right : Recipe)
  | graft (j : Joint) (left right : Recipe)
  | complement (operand : Recipe)
deriving Repr, DecidableEq

namespace Recipe

/-- Where nothing was kept there is a surface. -/
def build (kept : List Region) : Recipe → Region
  | .kept i => kept[i]?.getD (.surface 1)
  | surface n => .surface n
  | outsideCell n => .outsideCell n
  | combine j a b => .combine j.op (a.build kept) (b.build kept)
  | graft j a b => .graft j.op (a.build kept) (b.build kept)
  | complement a => (a.build kept).complement

end Recipe

/-- What can be done with a cell. -/
inductive Action where
  /-- Keeps the region as it stands. -/
  | keep
  | replace (e : Recipe)
  /-- Joins another region to that of the cell in place. -/
  | edit (j : Joint) (e : Recipe)
  /-- Writes the region into the geometry. -/
  | sync
  /-- Writes the region into the geometry, and drops all regions that were kept before. -/
  | renew
deriving Repr, DecidableEq

def Action.writes : Action → Bool
  | .sync | .renew => true
  | _ => false

/-- A cell, and the regions that were kept of it, the first one first. -/
structure Session where
  cell : CellRecord
  kept : List Region

namespace Session

def start (c : CellRecord) : Session := ⟨c, []⟩

/-- An action on a region that cannot be read does nothing. -/
def step (s : Session) : Action → Session
  | .keep =>
    match s.cell.region with
    | .ok r => ⟨{ s.cell with pending := some r }, s.kept ++ [r]⟩
    | .error _ => s
  | .replace e => { s with cell := s.cell.setRegion (e.build s.kept) }
  | .edit j e =>
    match s.cell.editRegion (Region.graft j.op · (e.build s.kept)) with
    | .ok c => { s with cell := c }
    | .error _ => s
  | .sync => { s with cell := s.cell.sync.1 }
  | .renew => ⟨s.cell.sync.1, []⟩

def run (s : Session) (as : List Action) : Session := as.foldl step s

/-- The region that is to be written, and all that were kept. -/
def regions (s : Session) : List Region := s.cell.pending.toList ++ s.kept

/-- Different origins of the region that is to be written lead to different entries. -/
def IsApart (s : Session) : Prop := ∀ r ∈ s.cell.pending, r.IsApart s.cell.geometry

/-- Whenever the region is written, and in the end, different origins lead to different entries. -/
def KeepsApart : Session → List Action → Prop
  | s, [] => s.IsApart
  | s, a :: as => (a.writes = true → s.IsApart) ∧ (s.step a).KeepsApart as

instance (s : Session) : Decidable s.IsApart :=
  inferInstanceAs (Decidable (∀ r ∈ s.cell.pending, r.IsApart s.cell.geometry))

instance decidableKeepsApart : (s : Session) → (as : List Action) → Decidable (s.KeepsApart as)
  | s, [] => inferInstanceAs (Decidable s.IsApart)
  | s, a :: as =>
    have := decidableKeepsApart (s.step a) as
    inferInstanceAs (Decidable ((a.writes = true → s.IsApart) ∧ (s.step a).KeepsApart as))

end Session

/-! ## Links -/

namespace Region

open TransportDeck.Geometry

variable {L L' : Bool → Nat → Prop} {a b r : Region}

/-- A proper tree in which nodes come from entries that they are allowed to come from. -/
def IsLinked (L : Bool → Nat → Prop) (r : Region) : Prop := ∃ x, r.Linked L x ∧ x.IsProper

namespace IsLinked

theorem mono (h : r.IsLinked L) (himp : ∀ c o, L c o → L' c o) : r.IsLinked L' := by
  obtain ⟨x, hx, hproper⟩ := h
  exact ⟨x, hx.mono himp, hproper⟩

theorem setCell (h : r.IsLinked L) (cell : Option Int) : (r.setCell cell).IsLinked L := by
  obtain ⟨x, hx, hproper⟩ := h
  exact ⟨x, hx.setCell cell, hproper⟩

/-- A new surface has no links. -/
theorem surface (n : Int) : (Region.surface n).IsLinked L := ⟨_, .ofSide _, n, rfl⟩

/-- The outside of a cell has no links. -/
theorem outsideCell (n : Int) : (Region.outsideCell n).IsLinked L :=
  ⟨_, .outsideCell n, .inr ⟨n, rfl⟩⟩

/-- A detached region has no links. -/
theorem detached (h : r.IsLinked L) : r.detached.IsLinked L' := by
  obtain ⟨x, hx, hproper⟩ := h
  exact ⟨x, hx.detached, hproper⟩

/-- Combining regions keeps their links. -/
theorem combine (j : Joint) (ha : a.IsLinked L) (hb : b.IsLinked L) :
    (Region.combine j.op a b).IsLinked L := by
  obtain ⟨x, hx, hproperx⟩ := ha
  obtain ⟨y, hy, hpropery⟩ := hb
  exact ⟨_, hx.combine j.op_ne_complement hy, hproperx, hpropery⟩

/-- Grafting regions keeps their links. -/
theorem graft (j : Joint) (ha : a.IsLinked L) (hb : b.IsLinked L) :
    (Region.graft j.op a b).IsLinked L := by
  obtain ⟨x, hx, hproperx⟩ := ha
  obtain ⟨y, hy, hpropery⟩ := hb
  exact ⟨_, hx.graft j.op_ne_complement hy, hproperx.graft j.op hpropery⟩

/-- The complement of a region keeps its links. -/
theorem complement (h : r.IsLinked L) : r.complement.IsLinked L := by
  obtain ⟨x, hx, hproper⟩ := h
  exact ⟨_, hx.complement, .inl hproper⟩

end IsLinked

end Region

/-- A recipe makes a linked region from regions that are linked. -/
theorem Recipe.isLinked_build {L : Bool → Nat → Prop} {kept : List Region}
    (h : ∀ r ∈ kept, r.IsLinked L) (e : Recipe) : (e.build kept).IsLinked L := by
  induction e with
  | kept i =>
    unfold build
    cases hi : kept[i]? with
    | none => exact .surface 1
    | some r => exact h r (List.mem_of_getElem? hi)
  | surface n => exact .surface n
  | outsideCell n => exact .outsideCell n
  | combine j _ _ iha ihb => exact iha.combine j ihb
  | graft j _ _ iha ihb => exact iha.graft j ihb
  | complement _ ih => exact ih.complement

/-! ## Steps that do not write -/

/-- The region of a cell is that of its geometry, with the number of the cell. -/
theorem CellRecord.exists_of_readRegion {c : CellRecord} {r : Region} (h : c.readRegion = .ok r) :
    ∃ r', Region.ofGeometry c.geometry = .ok r' ∧ r = r'.setCell (some c.numberValue) := by
  unfold readRegion at h
  cases hread : Region.ofGeometry c.geometry with
  | error e =>
    rw [hread] at h
    cases h
  | ok r' =>
    rw [hread] at h
    exact ⟨r', rfl, (Except.ok.inj h).symm⟩

namespace Session

open TransportDeck.Geometry

variable {s : Session} {L : Bool → Nat → Prop}

/-- The links of the region of the cell are those of what is pending, or of what is read. -/
theorem isLinked_region (hread : ∀ r, Region.ofGeometry s.cell.geometry = .ok r → r.IsLinked L)
    (h : ∀ r ∈ s.regions, r.IsLinked L) {r : Region} (hr : s.cell.region = .ok r) :
    r.IsLinked L := by
  unfold CellRecord.region at hr
  split at hr
  · next r' hpending =>
    obtain rfl := Except.ok.inj hr
    exact h r' (List.mem_append_left _ (by simp [hpending]))
  · obtain ⟨r', hof, rfl⟩ := CellRecord.exists_of_readRegion hr
    exact (hread r' hof).setCell _

/-- Until the region is written, the geometry stays and no region gets other links. -/
theorem step_of_not_writes (hread : ∀ r, Region.ofGeometry s.cell.geometry = .ok r → r.IsLinked L)
    (h : ∀ r ∈ s.regions, r.IsLinked L) {a : Action} (ha : a.writes = false) :
    (s.step a).cell.geometry = s.cell.geometry ∧ ∀ r ∈ (s.step a).regions, r.IsLinked L := by
  have hkept : ∀ r ∈ s.kept, r.IsLinked L := fun r hr ↦ h r (List.mem_append_right _ hr)
  cases a with
  | keep =>
    unfold step
    dsimp only
    split
    · next r hr =>
      have hlinked := isLinked_region hread h hr
      refine ⟨rfl, fun r' hr' ↦ ?_⟩
      simp only [regions, Option.toList_some, List.mem_append, List.mem_singleton] at hr'
      rcases hr' with rfl | hr' | rfl
      · exact hlinked
      · exact hkept r' hr'
      · exact hlinked
    · exact ⟨rfl, h⟩
  | replace e =>
    have hbuilt := e.isLinked_build hkept
    refine ⟨rfl, fun r hr ↦ ?_⟩
    rcases List.mem_append.mp hr with hr | hr
    · obtain rfl := List.mem_singleton.mp hr
      refine Region.IsLinked.setCell ?_ _
      split_ifs
      · exact hbuilt
      · exact hbuilt.detached
    · exact hkept r hr
  | edit j e =>
    have hbuilt := e.isLinked_build hkept
    unfold step CellRecord.editRegion
    dsimp only
    cases hr : s.cell.region with
    | error _ => exact ⟨rfl, h⟩
    | ok r =>
      have hlinked := (isLinked_region hread h hr).graft j hbuilt
      refine ⟨rfl, fun r' hr' ↦ ?_⟩
      rcases List.mem_append.mp hr' with hr' | hr'
      · obtain rfl := List.mem_singleton.mp hr'
        exact hlinked
      · exact hkept r' hr'
  | sync | renew => cases ha

end Session

/-! ## Writing -/

/-- A region that was read from a geometry is linked to entries of that geometry. -/
theorem Geometry.IsSound.isLinked {g : Geometry} {tree : GeometryTree} {r : Region}
    (h : g.IsSound tree) (hr : Region.ofGeometry g = .ok r) : r.IsLinked g.Leads := by
  obtain ⟨ss, hready, hread⟩ := h.exists_strands
  obtain ⟨x, hx, hproper⟩ := hread r hr
  exact ⟨x, hx.mono fun c o ho ↦ ho.leads hready.nests, hproper⟩

/-- A region whose origins lead to different entries is written as a tree and read as the same
region, and entries that could be named before can be named still. -/
theorem Region.IsLinked.writeInto {g : Geometry} {r : Region} (h : r.IsLinked g.Leads)
    (hg : g.IsShaped) (hapart : r.IsApart g) :
    (∃ tree, (r.writeInto g).IsSound tree) ∧
      (∃ r', ofGeometry (r.writeInto g) = .ok r' ∧ r'.sides = r.sides ∧
        ∀ inside, r'.holds inside = r.holds inside) ∧
      ∀ c o, g.Leads c o → (r.writeInto g).Leads c o := by
  obtain ⟨x, hx, hproper⟩ := h
  obtain ⟨ss, hready, hlinked⟩ := hx.exists_heads hg hapart
  obtain ⟨tree, hsound, hdescribes⟩ := hlinked.writeInto hready
  obtain ⟨y, hy, hxy⟩ := hdescribes.region
  obtain ⟨r', hr', hr'y⟩ := hsound.ofGeometry hy
  refine ⟨⟨tree, hsound⟩, ⟨r', hr', ?_, fun inside ↦ ?_⟩, fun c o ↦ hlinked.leads_writeInto hready⟩
  · rw [hr'y.sides_eq, hx.isTree.sides_eq, hxy.sides_eq_iff]
    exact hproper
  · rw [hr'y.holds_eq, hx.isTree.holds_eq, hxy.holds_eq hproper]

namespace Session

open TransportDeck.Geometry

variable {s : Session} {as : List Action}

/-- The geometry is a tree below its root, and all regions name entries of it. -/
structure IsValid (s : Session) : Prop where
  sound : ∃ tree, s.cell.geometry.IsSound tree
  linked : ∀ r ∈ s.regions, r.IsLinked s.cell.geometry.Leads

/-- What is written is a tree below its root, and is read as the region of the cell. -/
def IsWritten (s : Session) : Prop :=
  (∃ tree, s.cell.writtenGeometry.IsSound tree) ∧
    ∀ r, s.cell.region = .ok r → ∃ r', Region.ofGeometry s.cell.writtenGeometry = .ok r' ∧
      r'.sides = r.sides ∧ ∀ inside, r'.holds inside = r.holds inside

namespace IsValid

/-- Where regions are kept apart, what is written is the region. -/
theorem isWritten (h : s.IsValid) (hapart : s.IsApart) : s.IsWritten := by
  obtain ⟨tree, hsound⟩ := h.sound
  unfold IsWritten CellRecord.writtenGeometry CellRecord.region
  cases hpending : s.cell.pending with
  | some r =>
    have hlinked := h.linked r (List.mem_append_left _ (by simp [hpending]))
    obtain ⟨htree, hread, -⟩ := hlinked.writeInto hsound.shaped (hapart r hpending)
    refine ⟨htree, fun r' hr' ↦ ?_⟩
    obtain rfl := Except.ok.inj hr'
    exact hread
  | none =>
    refine ⟨⟨tree, hsound⟩, fun r hr ↦ ?_⟩
    obtain ⟨r', hof, rfl⟩ := CellRecord.exists_of_readRegion hr
    obtain ⟨x, hx, -⟩ := hsound.isLinked hof
    have hcell := (hx.setCell (some s.cell.numberValue)).isTree
    exact ⟨r', hof, hx.isTree.sides_eq.trans hcell.sides_eq.symm, fun inside ↦
      (hx.isTree.holds_eq inside).trans (hcell.holds_eq inside).symm⟩

/-- Writing leaves a tree.  What is pending then was read from it, and what was kept names entries
still. -/
theorem sync (h : s.IsValid) (hapart : s.IsApart) :
    (∃ tree, s.cell.sync.1.geometry.IsSound tree) ∧
      (∀ r ∈ s.cell.sync.1.pending, ∃ r', Region.ofGeometry s.cell.sync.1.geometry = .ok r' ∧
        r = r'.setCell (some s.cell.numberValue)) ∧
      ∀ r ∈ s.kept, r.IsLinked s.cell.sync.1.geometry.Leads := by
  obtain ⟨tree, hsound⟩ := h.sound
  have hkept : ∀ r ∈ s.kept, r.IsLinked s.cell.geometry.Leads := fun r hr ↦
    h.linked r (List.mem_append_right _ hr)
  unfold CellRecord.sync
  cases hpending : s.cell.pending with
  | none => exact ⟨⟨tree, hsound⟩, by simp [hpending], hkept⟩
  | some r =>
    have hlinked := h.linked r (List.mem_append_left _ (by simp [hpending]))
    obtain ⟨htree, ⟨r', hr', -⟩, hleads⟩ := hlinked.writeInto hsound.shaped (hapart r hpending)
    have hgeometry : s.cell.writtenGeometry = r.writeInto s.cell.geometry := by
      rw [CellRecord.writtenGeometry, hpending]
    dsimp only [CellRecord.readRegion]
    rw [hgeometry, hr']
    refine ⟨htree, ?_, fun r hr ↦ (hkept r hr).mono hleads⟩
    rintro _ ⟨⟩
    exact ⟨r', hr', rfl⟩

/-- One step leaves a valid session, if a region that it writes has different origins for different
entries. -/
theorem step (h : s.IsValid) {a : Action} (hapart : a.writes = true → s.IsApart) :
    (s.step a).IsValid := by
  cases ha : a.writes with
  | false =>
    obtain ⟨tree, hsound⟩ := h.sound
    obtain ⟨hgeometry, hlinked⟩ := step_of_not_writes (fun r ↦ hsound.isLinked) h.linked ha
    rw [← hgeometry] at hsound hlinked
    exact ⟨⟨tree, hsound⟩, hlinked⟩
  | true =>
    obtain ⟨⟨tree, hsound⟩, hread, hkept⟩ := h.sync (hapart ha)
    have hpending : ∀ r ∈ s.cell.sync.1.pending, r.IsLinked s.cell.sync.1.geometry.Leads := by
      intro r hr
      obtain ⟨r', hr', rfl⟩ := hread r hr
      exact (hsound.isLinked hr').setCell _
    cases a with
    | keep | replace | edit => cases ha
    | sync =>
      refine ⟨⟨tree, hsound⟩, fun r hr ↦ ?_⟩
      rcases List.mem_append.mp hr with hr | hr
      · exact hpending r (Option.mem_toList.mp hr)
      · exact hkept r hr
    | renew =>
      refine ⟨⟨tree, hsound⟩, fun r hr ↦ hpending r ?_⟩
      simpa [regions, Session.step] using hr

/-- A session that keeps regions apart does so through all of its actions. -/
theorem run (h : s.IsValid) (hapart : s.KeepsApart as) :
    (s.run as).IsValid ∧ (s.run as).IsApart := by
  induction as generalizing s with
  | nil => exact ⟨h, hapart⟩
  | cons a as ih => exact ih (h.step hapart.1) hapart.2

end IsValid

/-! ## Cells that are read -/

/-- A cell that was read has nothing pending, and its geometry is sound. -/
theorem sound_of_parse {card : Card} {c : CellRecord} (h : card.parse = .ok (.cell c)) :
    c.pending = none ∧ ∃ tree, c.geometry.IsSound tree := by
  obtain ⟨raw, hraw, hread, -⟩ := Card.readAs_of_parse h
  cases raw with
  | surface | data | read | verbatim => cases hraw
  | cell raw =>
    injection hraw with hraw
    subst hraw
    obtain ⟨tree, htree, htreeRead⟩ := hread.geometry
    exact ⟨hread.not_pending, tree, htree.isSound htreeRead⟩

/-- At its start a session holds no regions. -/
theorem regions_start {c : CellRecord} (h : c.pending = none) : (start c).regions = [] := by
  simp [regions, start, h]

/-- A session with a cell that was read is valid. -/
theorem isValid_start {card : Card} {c : CellRecord} (h : card.parse = .ok (.cell c)) :
    (start c).IsValid := by
  obtain ⟨hpending, hsound⟩ := sound_of_parse h
  exact ⟨hsound, by simp [regions_start hpending]⟩

/-- However a cell is edited: as long as different origins lead to different entries whenever its
region is written, the geometry is a tree and says what the region says. -/
theorem isWritten_of_keepsApart {card : Card} {c : CellRecord} (h : card.parse = .ok (.cell c))
    (hapart : (start c).KeepsApart as) : ((start c).run as).IsWritten := by
  obtain ⟨hvalid, hend⟩ := (isValid_start h).run hapart
  exact hvalid.isWritten hend

/-- What can be computed from the cell that a card is holds of it. -/
theorem exists_of_card (card : Card) (p : CellRecord → Bool)
    (h : (match card.parse with | .ok (.cell c) => p c | _ => false) = true) :
    ∃ c, card.parse = .ok (.cell c) ∧ p c = true := by
  split at h
  · next c hc => exact ⟨c, hc, h⟩
  · cases h

/-- A region is kept, the cell is edited and its geometry written, and both regions are united. -/
theorem isWritten_of_old_region : ∃ (card : Card) (c : CellRecord), card.parse = .ok (.cell c) ∧
    let as : List Action := [.keep, .edit .and (.surface 5), .sync, .edit .or (.kept 0)]
    (start c).KeepsApart as ∧ ((start c).run as).IsWritten := by
  obtain ⟨c, hc, hapart⟩ := exists_of_card ⟨.cell, ["1 0 (-1 : -2)"], "deck", 1, 0⟩
    (fun c ↦ (start c).KeepsApart [.keep, .edit .and (.surface 5), .sync, .edit .or (.kept 0)])
    (by decide +kernel)
  have hapart := of_decide_eq_true hapart
  exact ⟨_, c, hc, hapart, isWritten_of_keepsApart hc hapart⟩

/-- The region that is kept first goes on naming the intersection of the cell, which the complement
puts in parentheses.  Writing both into one entry loses the third side, and leaves the cell
empty. -/
theorem not_isWritten_of_old_region : ∃ (card : Card) (c : CellRecord) (as : List Action),
    card.parse = .ok (.cell c) ∧ ¬ ((start c).run as).IsWritten := by
  let as : List Action := [.keep, .edit .and (.surface 5), .keep, .replace (.complement (.kept 1)),
    .sync, .edit .and (.kept 0)]
  obtain ⟨c, hc, hlost⟩ := exists_of_card ⟨.cell, ["1 0 -1 -2"], "deck", 1, 0⟩
    (fun c ↦
      match ((start c).run as).cell.region,
          Region.ofGeometry ((start c).run as).cell.writtenGeometry with
      | .ok r, .ok r' => r.holds (!·.positive) && !r'.holds (!·.positive)
      | .ok _, .error _ => false
      | .error _, _ => false) (by decide +kernel)
  refine ⟨_, c, as, hc, fun hwritten ↦ ?_⟩
  split at hlost
  · next r r' hr hr' =>
    obtain ⟨r'', hr'', -, hholds⟩ := hwritten.2 r hr
    obtain rfl := Except.ok.inj (hr'.symm.trans hr'')
    rw [hholds, Bool.and_not_self] at hlost
    cases hlost
  · cases hlost
  · cases hlost

/-! ## Sessions that keep nothing over a writing -/

/-- All regions come from heads of strands that do not meet. -/
def IsCurrent (s : Session) : Prop :=
  ∃ ss, (⟨s.cell.geometry, []⟩ : Region.Draft).Ready ss ∧
    (∀ r, Region.ofGeometry s.cell.geometry = .ok r → r.IsLinked (Heads ss)) ∧
      ∀ r ∈ s.regions, r.IsLinked (Heads ss)

namespace IsCurrent

/-- Regions that were read from the cell as it is are current. -/
theorem of_read {tree : GeometryTree} (hsound : s.cell.geometry.IsSound tree)
    (h : ∀ r ∈ s.regions, ∃ r' cell, Region.ofGeometry s.cell.geometry = .ok r' ∧
      r = r'.setCell cell) : s.IsCurrent := by
  obtain ⟨ss, hready, hread⟩ := hsound.exists_strands
  refine ⟨ss, hready, hread, fun r hr ↦ ?_⟩
  obtain ⟨r', cell, hr', rfl⟩ := h r hr
  exact Region.IsLinked.setCell (hread r' hr') cell

/-- Current regions are kept apart. -/
theorem isApart (h : s.IsCurrent) : s.IsApart := by
  intro r hr
  obtain ⟨ss, hready, -, hlinked⟩ := h
  obtain ⟨x, hx, -⟩ := hlinked r (List.mem_append_left _ (Option.mem_toList.mpr hr))
  exact hx.isApart hready

/-- Until the cell is synced, regions stay current. -/
theorem step (h : s.IsCurrent) (hvalid : s.IsValid) {a : Action} (ha : a ≠ .sync) :
    (s.step a).IsCurrent := by
  cases hwrites : a.writes with
  | false =>
    obtain ⟨ss, hready, hread, hlinked⟩ := h
    obtain ⟨hgeometry, hlinked⟩ := step_of_not_writes hread hlinked hwrites
    refine ⟨ss, ?_, ?_, hlinked⟩
    · rwa [hgeometry]
    · rwa [hgeometry]
  | true =>
    obtain ⟨⟨tree, hsound⟩, hread, -⟩ := hvalid.sync h.isApart
    cases a with
    | keep | replace | edit => cases hwrites
    | sync => exact absurd rfl ha
    | renew =>
      refine .of_read hsound fun r hr ↦ ?_
      obtain ⟨r', hr', heq⟩ := hread r (by simpa [regions, Session.step] using hr)
      exact ⟨r', _, hr', heq⟩

/-- Actions that do not sync the cell keep regions apart. -/
theorem keepsApart (h : s.IsCurrent) (hvalid : s.IsValid) (has : .sync ∉ as) : s.KeepsApart as := by
  induction as generalizing s with
  | nil => exact h.isApart
  | cons a as ih =>
    rw [List.mem_cons, not_or] at has
    exact ⟨fun _ ↦ h.isApart,
      ih (h.step hvalid (Ne.symm has.1)) (hvalid.step fun _ ↦ h.isApart) has.2⟩

end IsCurrent

/-- However a cell is edited, if no region is kept over a writing, the geometry is a tree and says
what the region says. -/
theorem isWritten_of_renewing {card : Card} {c : CellRecord} (h : card.parse = .ok (.cell c))
    (has : .sync ∉ as) : ((start c).run as).IsWritten := by
  obtain ⟨hpending, tree, hsound⟩ := sound_of_parse h
  have hcurrent : (start c).IsCurrent := .of_read hsound (by simp [regions_start hpending])
  have hvalid := isValid_start h
  obtain ⟨hvalid, hend⟩ := hvalid.run (hcurrent.keepsApart hvalid has)
  exact hvalid.isWritten hend

end Session

end TransportDeck
