import TransportDeck.Proofs.Grammar.CellReading
import TransportDeck.Proofs.Region.Operations
import TransportDeck.Proofs.Region.Origins
import TransportDeck.Proofs.Region.Printing

/-!
# Nodes and the entries that they show

The grammar leaves to parentheses how geometries are bracketed.  A union is no operand of an
intersection unless it is in parentheses, and behind `#` stands a number or something in
parentheses.  Of a region that was read, every node shows an entry of the geometry and comes from
it, or from the parentheses around it.  A run is one entry and is shown by a chain, of which the top
comes from it.
-/

namespace TransportDeck

/-! ## Trees -/

/-- The field holds the number as a magnitude and a sign. -/
structure Field.Holds (f : Field) (n : Int) : Prop where
  identifier : f.IsIdentifier
  value_eq : f.value = some (.int n.natAbs)
  negative_eq : f.negative = decide (n < 0)

theorem Field.Holds.signed_eq {f : Field} {n : Int} (h : f.Holds n) :
    f.signed = some (.int n) := by
  unfold signed
  rw [h.identifier.apart, h.value_eq, h.negative_eq]
  by_cases hn : n < 0
  · simp [hn, Value.negate, abs_of_neg]
  · simp [hn, abs_of_nonneg, Int.not_lt.mp hn]

theorem Field.Holds.toInt?_eq {f : Field} {n : Int} (h : f.Holds n) : f.toInt? = some n := by
  rw [toInt?, h.signed_eq]
  rfl

theorem Field.holds_of_parse? {text : String} {l : Option Layout} {f : Field}
    (h : Field.parse? text .int l = some f) :
    ∃ n, Number.readInt? text = some n ∧ f.asSignedIdentifier.Holds n := by
  have hkind := Field.kind_of_parse? h
  obtain ⟨v, hv, rfl⟩ := Option.map_eq_some_iff.mp h
  obtain ⟨n, hn, rfl⟩ := Option.map_eq_some_iff.mp hv
  exact ⟨n, hn, Field.isIdentifier_asSignedIdentifier hkind, rfl, rfl⟩

namespace GeometryTree

def isUnion : GeometryTree → Bool
  | binary .union .. => true
  | _ => false

/-- A number, or something in parentheses. -/
def isEnclosed : GeometryTree → Bool
  | leaf _ | group .. => true
  | _ => false

/-- Parentheses stand where precedence asks for them. -/
def IsBracketed : GeometryTree → Prop
  | leaf f => ∃ n, f.Holds n
  | run _ => True
  | binary op l _ r =>
    l.IsBracketed ∧ r.IsBracketed ∧ (op = .intersection → l.isUnion = false ∧ r.isUnion = false)
  | complement _ t => t.IsBracketed ∧ t.isEnclosed = true
  | group _ t _ => t.IsBracketed

/-- What may stand at a level: in a group a number or something in parentheses, and a union only at
the top. -/
def IsAt (tree : GeometryTree) : PhraseLevel → Prop
  | .group => tree.isEnclosed = true
  | .factor | .intersection => tree.isUnion = false
  | .union => True

theorem isUnion_of_isEnclosed {tree : GeometryTree} (h : tree.isEnclosed = true) :
    tree.isUnion = false := by
  cases tree <;> first | rfl | cases h

/-- What is read needs no parentheses but those that it has. -/
theorem Parsed.isBracketed {level : PhraseLevel} {room : Nat} {tree : GeometryTree}
    {ts : List Token} {l : Option Layout} (h : tree.Parsed level room ts l) :
    tree.IsBracketed ∧ tree.IsAt level := by
  induction h with
  | leaf _ value =>
    obtain ⟨n, -, hholds⟩ := Field.holds_of_parse? value
    exact ⟨⟨n, hholds⟩, rfl⟩
  | group _ _ _ _ _ ih => exact ⟨ih.1, rfl⟩
  | complement _ _ _ ih => exact ⟨ih, rfl⟩
  | run _ _ _ _ ih => exact ⟨⟨ih.1, trivial, fun _ ↦ ⟨ih.2, rfl⟩⟩, rfl⟩
  | intersection _ _ ihl ihr => exact ⟨⟨ihl.1, ihr.1, fun _ ↦ ⟨ihl.2, ihr.2⟩⟩, rfl⟩
  | union _ _ _ _ ihl ihr => exact ⟨⟨ihl.1, ihr.1, nofun⟩, trivial⟩
  | ofGroup _ ih => exact ⟨ih.1, isUnion_of_isEnclosed ih.2⟩
  | ofFactor _ ih => exact ih
  | ofIntersection _ ih => exact ⟨ih.1, trivial⟩

end GeometryTree

/-! ## Geometries and cells -/

namespace Production

variable {c : Cursor}

theorem reads_bracketed (gr : Grammar) :
    Reads (geometry gr) c fun g _ ↦ ∃ tree, g.IsTree tree ∧ tree.IsBracketed :=
  (reads_geometry gr).mono fun _ _ ⟨tree, htree, hparsed⟩ ↦ ⟨tree, htree, hparsed.isBracketed.1⟩

theorem heading_reads_bracketed :
    Reads heading c fun r _ ↦ ∃ tree, r.geometry.IsTree tree ∧ tree.IsBracketed := by
  refine Reads.layout.bind fun leading _ _ _ _ ↦ ?_
  refine (Reads.value _ _).bind fun number _ _ _ _ ↦ ?_
  refine Reads.refuseLike.bind fun _ _ _ _ _ ↦ ?_
  refine (Reads.value _ _).bind fun material _ _ _ _ ↦ ?_
  refine (Reads.density? material).bind fun density _ _ _ _ ↦ ?_
  exact (reads_bracketed .cell).bind fun geometry _ _ _ hgeometry ↦ .pure hgeometry

end Production

/-- The geometry of a cell is one tree, and it is bracketed. -/
theorem Card.exists_bracketed {card : Card} {c : CellRecord} (h : card.parse = .ok (.cell c)) :
    ∃ tree, c.geometry.IsTree tree ∧ tree.IsBracketed := by
  obtain ⟨-, -, ts, htokens, hparse⟩ := Card.parse_eq_cell_iff.mp h
  have hlex : ∀ t ∈ ts, Lexer.Spells t.kind t.text := Lexer.spells_of_tokensFrom htokens
  obtain ⟨head, ps, c', hread, -, -, hcell⟩ := Production.exists_hasRead_of_parse hlex hparse
  cases hcell
  obtain ⟨c₀, hhead, -⟩ := hread.exists_place
  have hlex₀ : (Cursor.of (.of ts)).IsLexed := hlex
  obtain ⟨-, -, -, hbracketed⟩ := Production.heading_reads_bracketed hlex₀ head c₀ hhead
  exact hbracketed

/-! ## Nodes and entries -/

namespace Region

open TransportDeck.Geometry

variable {g : Geometry} {nodes nodes' : Array RegionNode} {tree : GeometryTree}
  {id o o' i top : Nat} {s os : List Nat} {ss : List (List Nat)}

/-- The node shows what stands, in parentheses or not, at the entry that it comes from; and so do
those below it, which come from the entries that are listed.  Operands come before operators.  Of
the nodes of a run only the top comes from an entry. -/
inductive Shows (g : Geometry) (nodes : Array RegionNode) :
    GeometryTree → Nat → Nat → List Nat → Prop where
  | leaf {f : Field} {n : Int} {o i : Nat} (entry : g.entry? (peel g g.size o) = some (.leaf f))
      (number : f.toInt? = some n) (node : nodes[i]? = some (.unit (.surface n) (some o))) :
      Shows g nodes (.leaf f) o i []
  | run {s : Shorthand} {x : RegionTree} {n : RegionNode} {o i : Nat} {ids : List Nat}
      (entry : g.entry? (peel g g.size o) = some (.run s)) (node : nodes[i]? = some n)
      (origin : n.origin = some o) (numbers : RegionTree.ofNumbers? s.numbers = some x)
      (chain : Spans nodes i x ids) (nodup : ids.Nodup) (le : ∀ k ∈ ids, k ≤ i)
      (bare : ∀ k ∈ ids, k ≠ i → ∀ m ∈ nodes[k]?, m.origin = none) :
      Shows g nodes (.run s) o i []
  | binary {op : GeometryOp} {l r o i j k : Nat} {mark : Layout} {left right : GeometryTree}
      {ls rs : List Nat} (entry : g.entry? (peel g g.size o) = some (.branch (.binary op l mark r)))
      (isBinary : op.isBinary = true)
      (node : nodes[i]? = some (.branch (if op = .union then .or else .and) j (some k) (some o)))
      (ltl : j < i) (ltr : k < i) (atLeft : Shows g nodes left l j ls)
        (atRight : Shows g nodes right r k rs) :
      Shows g nodes (.binary op left mark right) o i (l :: ls ++ r :: rs)
  | cell {f : Field} {n : Int} {c o i j : Nat} {mark : Layout}
      (entry : g.entry? (peel g g.size o) = some (.branch (.complement mark c)))
      (inner : g.entry? c = some (.leaf f)) (number : f.toInt? = some n)
      (node : nodes[i]? = some (.branch .complement j none (some o))) (lt : j < i)
      (below : nodes[j]? = some (.unit (.cell n) (some c))) :
      Shows g nodes (.complement mark (.leaf f)) o i [c]
  | complement {c o i j : Nat} {mark : Layout} {operand : GeometryTree} {cs : List Nat}
      (entry : g.entry? (peel g g.size o) = some (.branch (.complement mark c)))
      (noLeaf : operand.leaf? = none)
        (node : nodes[i]? = some (.branch .complement j none (some o)))
      (lt : j < i) (below : Shows g nodes operand c j cs) :
      Shows g nodes (.complement mark operand) o i (c :: cs)
  | group {opening closing : Layout} {inner : GeometryTree} {o i : Nat} {os : List Nat}
      (isGroup : isGroup g o = true) (below : Shows g nodes inner o i os) :
      Shows g nodes (.group opening inner closing) o i os

namespace Shows

/-- Nodes behind the one that shows an entry do not matter. -/
theorem congr (h : Shows g nodes tree o i os) (hnodes : ∀ k ≤ i, nodes'[k]? = nodes[k]?) :
    Shows g nodes' tree o i os := by
  induction h with
  | leaf entry number node => exact .leaf entry number ((hnodes _ le_rfl).trans node)
  | run entry node origin numbers chain nodup le bare =>
    exact .run entry ((hnodes _ le_rfl).trans node) origin numbers
      (chain.congr fun k hk ↦ hnodes k (le k hk)) nodup le
      fun k hk hki m hm ↦ bare k hk hki m (hnodes k (le k hk) ▸ hm)
  | binary entry isBinary node ltl ltr _ _ ihl ihr =>
    exact .binary entry isBinary ((hnodes _ le_rfl).trans node) ltl ltr
      (ihl fun k hk ↦ hnodes k (hk.trans ltl.le)) (ihr fun k hk ↦ hnodes k (hk.trans ltr.le))
  | cell entry inner number node lt below =>
    exact .cell entry inner number ((hnodes _ le_rfl).trans node) lt ((hnodes _ lt.le).trans below)
  | complement entry noLeaf node lt _ ih =>
    exact .complement entry noLeaf ((hnodes _ le_rfl).trans node)
      lt (ih fun k hk ↦ hnodes k (hk.trans lt.le))
  | group isGroup _ ih => exact .group isGroup (ih hnodes)

theorem congr_push {n : RegionNode} (h : Shows g nodes tree o i os) (hi : i < nodes.size) :
    Shows g (nodes.push n) tree o i os :=
  h.congr fun _ hk ↦ getElem?_push_of_lt (Nat.lt_of_le_of_lt hk hi)

theorem getElem?_setOriginAt_self {n : RegionNode} (h : nodes[i]? = some n) (o : Nat) :
    (setOriginAt nodes i o)[i]? = some (n.setOrigin (some o)) := by
  rw [setOriginAt, Array.getElem?_modify, if_pos rfl, h]
  rfl

theorem getElem?_setOriginAt_of_lt {j : Nat} (h : j < i) (o : Nat) :
    (setOriginAt nodes i o)[j]? = nodes[j]? := by
  rw [setOriginAt, Array.getElem?_modify, if_neg (Nat.ne_of_gt h)]

/-- The node may come from parentheses around what it comes from. -/
theorem setOrigin (h : Shows g nodes tree o i os) (hplace : peel g g.size o' = peel g g.size o)
    (hgroup : Region.isGroup g o' = true) : Shows g (setOriginAt nodes i o') tree o' i os := by
  have below {j : Nat} {t : GeometryTree} {p : Nat} {ps : List Nat} (hj : j < i)
      (hbelow : Shows g nodes t p j ps) : Shows g (setOriginAt nodes i o') t p j ps :=
    hbelow.congr fun k hk ↦ getElem?_setOriginAt_of_lt (Nat.lt_of_le_of_lt hk hj) o'
  induction h with
  | leaf entry number node =>
    rw [← hplace] at entry
    exact .leaf entry number (getElem?_setOriginAt_self node o')
  | @run s x n o i ids entry node origin numbers chain nodup le bare =>
    rw [← hplace] at entry
    refine .run entry (getElem?_setOriginAt_self node o') (n.origin_setOrigin _) numbers ?_ nodup le
      fun k hk hki m hm ↦ bare k hk hki m
        (getElem?_setOriginAt_of_lt (Nat.lt_of_le_of_ne (le k hk) hki) o' ▸ hm)
    refine chain.congr_origin fun k _ m hm ↦ ?_
    by_cases hk : k = i
    · subst hk
      exact ⟨some o', getElem?_setOriginAt_self hm o'⟩
    · refine ⟨m.origin, ?_⟩
      rw [setOriginAt, Array.getElem?_modify, if_neg (Ne.symm hk), hm, m.setOrigin_origin]
  | binary entry isBinary node ltl ltr atLeft atRight =>
    rw [← hplace] at entry
    exact .binary entry isBinary (getElem?_setOriginAt_self node o') ltl ltr (below ltl atLeft)
      (below ltr atRight)
  | cell entry inner number node lt hbelow =>
    rw [← hplace] at entry
    exact .cell entry inner number (getElem?_setOriginAt_self node o') lt
      ((getElem?_setOriginAt_of_lt lt o').trans hbelow)
  | complement entry noLeaf node lt hbelow =>
    rw [← hplace] at entry
    exact .complement entry noLeaf (getElem?_setOriginAt_self node o') lt (below lt hbelow)
  | group _ _ ih => exact .group hgroup (ih hplace below)

end Shows

/-! ## Reading -/

/-- A node behind others that shows a tree was put last, and left the others as they were. -/
structure ShownBehind (g : Geometry) (nodes nodes' : Array RegionNode) (tree : GeometryTree)
    (o top : Nat) (os : List Nat) : Prop where
  size_le : nodes.size ≤ top
  size_eq : nodes'.size = top + 1
  frame : ∀ k < nodes.size, nodes'[k]? = nodes[k]?
  shown : Shows g nodes' tree o top os

theorem toInt?_of_leafNumber {f : Field} {n : Int} (h : leafNumber f id = .ok n) :
    f.toInt? = some n := by
  unfold leafNumber at h
  split at h
  · next m hm =>
    obtain rfl := Except.ok.inj h
    exact hm
  · cases h

theorem size_eq_of_pushRun {ns : List Int} (h : pushRun nodes ns = some (nodes', top)) :
    nodes'.size = top + 1 := by
  cases ns with
  | nil => cases h
  | cons n ns =>
    cases ns using List.reverseRecOn with
    | nil =>
      cases h
      exact Array.size_push _
    | append_singleton ns m =>
      rw [pushRun_concat] at h
      obtain ⟨⟨nodes₁, top₁⟩, -, heq⟩ := Option.map_eq_some_iff.mp h
      cases heq
      rw [Array.size_push, Array.size_push]

/-- What stands in no parentheses stands where it is named. -/
theorem peel_eq_self (h : g.Strands id tree [id] ss) : peel g g.size id = id :=
  (Option.some.inj ((h.nests _ (List.mem_cons_self ..)).getLast? rfl)).symm

/-- Parentheses lead where their inside does. -/
theorem peel_eq_inner {c : Nat} {opening closing : Layout} {inner : GeometryTree}
    (h : g.Strands c inner s ss) (entry : g.entry? id = some (.branch (.group opening c closing))) :
    peel g g.size id = peel g g.size c := by
  have hnests := h.nests _ (List.mem_cons_self ..)
  obtain ⟨s, rfl⟩ := List.head?_eq_some_iff.mp h.head?
  exact Option.some.inj (((Nests.group entry hnests).getLast? rfl).symm.trans (hnests.getLast? rfl))

namespace ShownBehind

theorem push {n : RegionNode} (hle : nodes.size ≤ nodes'.size)
    (hframe : ∀ k < nodes.size, nodes'[k]? = nodes[k]?)
    (hshown : Shows g (nodes'.push n) tree o nodes'.size os) :
    ShownBehind g nodes (nodes'.push n) tree o nodes'.size os where
  size_le := hle
  size_eq := Array.size_push _
  frame := fun k hk ↦ (getElem?_push_of_lt (Nat.lt_of_lt_of_le hk hle)).trans (hframe k hk)
  shown := hshown

theorem lt_size (h : ShownBehind g nodes nodes' tree o top os) : top < nodes'.size := by
  rw [h.size_eq]
  exact Nat.lt_succ_self top

theorem run {s : Shorthand} (entry : g.entry? (peel g g.size o) = some (.run s))
    (hrun : pushRun nodes s.numbers = some (nodes', top)) :
    ShownBehind g nodes (setOriginAt nodes' top o) (.run s) o top [] := by
  cases hnumbers : s.numbers with
  | nil =>
    rw [hnumbers] at hrun
    cases hrun
  | cons n ns =>
    rw [hnumbers] at hrun
    obtain ⟨nodes₁, top₁, x, hrun', hx, hput⟩ := pushRun_spec nodes n ns
    obtain ⟨rfl, rfl⟩ := Prod.mk.inj (Option.some.inj (hrun.symm.trans hrun'))
    have hput := hput.setOrigin o
    obtain ⟨ids, hspans, hnodup, hge⟩ := hput.spans
    obtain ⟨m, hm, -, horigin⟩ := hput.atTop
    have hsize : (setOriginAt nodes' top o).size = top + 1 := by
      rw [setOriginAt, Array.size_modify, size_eq_of_pushRun hrun]
    refine ⟨hge top hspans.mem, hsize, hput.frame, ?_⟩
    refine .run entry hm horigin (by rw [hnumbers, hx]) hspans hnodup (fun k hk ↦ ?_)
      fun k hk hne m hm ↦ Option.eq_none_iff_forall_not_mem.mpr fun o ho ↦ ?_
    · have hlt := hspans.lt_size k hk
      rw [hsize] at hlt
      exact Nat.le_of_lt_succ hlt
    · obtain ⟨s, hs, -⟩ := hput.others k m (hge k hk) hne hm o ho
      exact absurd hs List.not_mem_nil

theorem binary {op : GeometryOp} {l r j k : Nat} {mark : Layout} {left right : GeometryTree}
    {ls rs : List Nat} {nodes₁ : Array RegionNode} (hl : ShownBehind g nodes nodes₁ left l j ls)
    (hr : ShownBehind g nodes₁ nodes' right r k rs)
    (entry : g.entry? (peel g g.size o) = some (.branch (.binary op l mark r)))
    (hop : op.isBinary = true) :
    ShownBehind g nodes
      (nodes'.push (.branch (if op = .union then .or else .and) j (some k) (some o)))
        (.binary op left mark right) o nodes'.size (l :: ls ++ r :: rs) := by
  have hle : nodes.size ≤ nodes₁.size := hl.size_le.trans hl.lt_size.le
  have hle' : nodes₁.size ≤ nodes'.size := hr.size_le.trans hr.lt_size.le
  have hlt : j < nodes'.size := Nat.lt_of_lt_of_le hl.lt_size hle'
  have hleft : Shows g nodes' left l j ls :=
    hl.shown.congr fun m hm ↦ hr.frame m (Nat.lt_of_le_of_lt hm hl.lt_size)
  refine .push (hle.trans hle') (fun m hm ↦ ?_) ?_
  · rw [hr.frame m (Nat.lt_of_lt_of_le hm hle), hl.frame m hm]
  · exact .binary entry hop Array.getElem?_push_size hlt hr.lt_size (hleft.congr_push hlt)
      (hr.shown.congr_push hr.lt_size)

theorem cell {f : Field} {n : Int} {c : Nat} {mark : Layout} (nodes : Array RegionNode)
    (entry : g.entry? (peel g g.size o) = some (.branch (.complement mark c)))
    (inner : g.entry? c = some (.leaf f)) (number : f.toInt? = some n) :
    ShownBehind g nodes ((nodes.push (.unit (.cell n) (some c))).push
      (.branch .complement nodes.size none (some o))) (.complement mark (.leaf f)) o
        (nodes.push (.unit (.cell n) (some c))).size [c] := by
  have hlt : nodes.size < (nodes.push (.unit (.cell n) (some c))).size := by
    rw [Array.size_push]
    exact Nat.lt_succ_self _
  exact .push hlt.le (fun m hm ↦ getElem?_push_of_lt hm)
    (.cell entry inner number Array.getElem?_push_size hlt
      ((getElem?_push_of_lt hlt).trans Array.getElem?_push_size))

theorem complement {c j : Nat} {mark : Layout} {operand : GeometryTree} {cs : List Nat}
    (h : ShownBehind g nodes nodes' operand c j cs)
    (entry : g.entry? (peel g g.size o) = some (.branch (.complement mark c)))
    (hleaf : operand.leaf? = none) :
    ShownBehind g nodes (nodes'.push (.branch .complement j none (some o)))
      (.complement mark operand) o nodes'.size (c :: cs) :=
  .push (h.size_le.trans h.lt_size.le) h.frame
    (.complement entry hleaf Array.getElem?_push_size h.lt_size (h.shown.congr_push h.lt_size))

theorem group {opening closing : Layout} (h : ShownBehind g nodes nodes' tree o top os)
    (hplace : peel g g.size o' = peel g g.size o) (hgroup : isGroup g o' = true) :
    ShownBehind g nodes (setOriginAt nodes' top o') (.group opening tree closing) o' top os where
  size_le := h.size_le
  size_eq := by rw [setOriginAt, Array.size_modify, h.size_eq]
  frame := fun k hk ↦ (Shows.getElem?_setOriginAt_of_lt (Nat.lt_of_lt_of_le hk h.size_le) o').trans
    (h.frame k hk)
  shown := .group hgroup (h.shown.setOrigin hplace hgroup)

end ShownBehind

/-- What is read from a tree shows it. -/
theorem shownBehind_of_readEntry (h : g.Strands id tree s ss) {fuel : Nat}
    (hread : readEntry g fuel id nodes = .ok (nodes', top)) :
    ShownBehind g nodes nodes' tree id top (ss.filterMap List.head?) := by
  induction h generalizing fuel nodes nodes' top with
  | @leaf id f entry =>
    have hplace := peel_eq_self (.leaf entry)
    cases fuel with
    | zero => cases hread
    | succ fuel =>
      simp only [readEntry, entry] at hread
      obtain ⟨n, hn, hread⟩ := exists_of_bind_ok hread
      cases hread
      exact .push le_rfl (fun _ _ ↦ rfl)
        (.leaf (by rw [hplace, entry]) (toInt?_of_leafNumber hn) Array.getElem?_push_size)
  | @run id s entry =>
    have hplace := peel_eq_self (.run entry)
    cases fuel with
    | zero => cases hread
    | succ fuel =>
      simp only [readEntry, entry] at hread
      split at hread
      · cases hread
      next hrun =>
      cases hread
      exact .run (by rw [hplace, entry]) hrun
  | @binary id l r op mark left right s u ss us entry isBinary hl hr ihl ihr =>
    have hplace := peel_eq_self (.binary entry isBinary hl hr)
    have hheads : (s :: ss ++ u :: us).filterMap List.head? =
        l :: ss.filterMap List.head? ++ r :: us.filterMap List.head? := by
      rw [List.filterMap_append, List.filterMap_cons_some hl.head?,
        List.filterMap_cons_some hr.head?]
    cases fuel with
    | zero => cases hread
    | succ fuel =>
      rw [readEntry_binary entry isBinary] at hread
      obtain ⟨⟨nodes₁, j⟩, hreadl, hread⟩ := exists_of_bind_ok hread
      obtain ⟨⟨nodes₂, k⟩, hreadr, hread⟩ := exists_of_bind_ok hread
      cases hread
      rw [hheads]
      exact (ihl hreadl).binary (ihr hreadr) (by rw [hplace, entry]) isBinary
  | @complement id c mark operand s ss entry hc ih =>
    have hplace := peel_eq_self (.complement entry hc)
    have hheads : (s :: ss).filterMap List.head? = c :: ss.filterMap List.head? :=
      List.filterMap_cons_some hc.head?
    rw [hheads]
    cases fuel with
    | zero => cases hread
    | succ fuel =>
      cases hleaf : operand.leaf? with
      | some f =>
        obtain ⟨hentry, -⟩ := hc.leaf?_eq_some hleaf
        simp only [readEntry, entry, Branch.complement, hentry] at hread
        obtain ⟨n, hn, hread⟩ := exists_of_bind_ok hread
        cases hread
        cases hc with
        | leaf =>
          obtain rfl := Option.some.inj hleaf
          exact .cell nodes (by rw [hplace, entry]) hentry (toInt?_of_leafNumber hn)
        | run | binary | complement | group => cases hleaf
      | none =>
        rw [readEntry_complement entry (hc.entry?_ne_leaf hleaf)] at hread
        obtain ⟨⟨nodes₁, j⟩, hoperand, hread⟩ := exists_of_bind_ok hread
        cases hread
        exact (ih hoperand).complement (by rw [hplace, entry]) hleaf
  | @group id c opening closing inner s ss entry hc ih =>
    cases fuel with
    | zero => cases hread
    | succ fuel =>
      simp only [readEntry, entry, Branch.group] at hread
      obtain ⟨⟨nodes₁, j⟩, hinner, hread⟩ := exists_of_bind_ok hread
      cases hread
      exact (ih hinner).group (peel_eq_inner hc entry) (by simp [isGroup, entry, Branch.group])

/-- The region of a geometry shows its tree. -/
theorem shownBehind_of_ofGeometry {r : Region} (h : g.Strands g.root tree s ss)
    (hread : ofGeometry g = .ok r) :
    ShownBehind g #[] r.nodes tree g.root r.root (ss.filterMap List.head?) := by
  unfold ofGeometry at hread
  split_ifs at hread
  obtain ⟨⟨nodes, root⟩, hentry, hread⟩ := exists_of_bind_ok hread
  cases hread
  exact shownBehind_of_readEntry h hentry

/-! ## Parentheses -/

section

variable {r : Region}

theorem isUnion_of_ofNumbers? {ns : List Int} {x : RegionTree}
    (h : RegionTree.ofNumbers? ns = some x) : x.isUnion = false := by
  cases ns with
  | nil => cases h
  | cons n ns =>
    cases ns using List.reverseRecOn with
    | nil =>
      obtain rfl := Option.some.inj h
      rfl
    | append_singleton ns m =>
      rw [RegionTree.ofNumbers?_concat] at h
      obtain ⟨y, -, rfl⟩ := Option.map_eq_some_iff.mp h
      rfl

theorem isUnionAt_eq_false {n : RegionNode} (node : r.nodes[i]? = some n)
    (hn : ∀ l right o, n ≠ .branch .or l right o) : r.isUnionAt i = false := by
  have hnode : r.node? i = some n := node
  rw [isUnionAt, hnode]
  cases n with
  | unit => rfl
  | branch op l right o =>
    cases op with
    | and | complement => rfl
    | or => exact absurd rfl (hn l right o)

namespace Shows

/-- The node for a union stands for a union or for parentheses. -/
theorem isGroup_of_isUnionAt (h : Shows g r.nodes tree o i os) (htree : tree.isUnion = false)
    (hi : r.isUnionAt i = true) : isGroup g o = true := by
  have refute (hnot : r.isUnionAt i = false) : isGroup g o = true := by
    rw [hnot] at hi
    cases hi
  cases h with
  | leaf _ _ node => exact refute (isUnionAt_eq_false node (by simp))
  | run _ _ _ numbers chain =>
    exact refute (chain.isUnionAt_eq.trans (isUnion_of_ofNumbers? numbers))
  | @binary op _ _ _ _ _ _ _ _ _ _ _ _ isBinary node =>
    cases op with
    | intersection => exact refute (isUnionAt_eq_false node (by simp))
    | union => cases htree
    | complement | group => cases isBinary
  | cell _ _ _ node => exact refute (isUnionAt_eq_false node (by simp))
  | complement _ _ node => exact refute (isUnionAt_eq_false node (by simp))
  | group isGroup => exact isGroup

/-- The operand of a complement is the inside of a cell or stands in parentheses. -/
theorem isGroup_of_isEnclosed (h : Shows g r.nodes tree o i os) (henclosed : tree.isEnclosed = true)
    (hleaf : tree.leaf? = none) : isGroup g o = true := by
  cases h with
  | leaf => cases hleaf
  | group isGroup => exact isGroup
  | run | binary | cell | complement => cases henclosed

end Shows

end

end Region

end TransportDeck
