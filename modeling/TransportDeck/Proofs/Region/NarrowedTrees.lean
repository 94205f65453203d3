import TransportDeck.Proofs.Region.Printing
import TransportDeck.Proofs.Region.Untouched

/-!
# Narrowed trees

What a geometry becomes when a number is put behind the last operand of the chain at its top: the
tree that stands there then, and what has stayed as it was.  A run is kept for the chain of its
numbers only.  For a longer chain it is spelled out: the numbers are written behind the entries that
are there, whichever of these are in use.
-/

namespace TransportDeck

/-! ## Chains of numbers -/

namespace RegionTree

variable {x : RegionTree} {ns : List Int}

/-- A chain of more than one number has its last one on the right. -/
theorem exists_join_of_ofNumbers? (h : ofNumbers? ns = some x) (hlength : 1 < ns.length) :
    ∃ ms m y, ns = ms ++ [m] ∧ ofNumbers? ms = some y ∧ x = .join .and y (.unit (.surface m)) := by
  obtain ⟨n, ns, rfl⟩ := List.exists_cons_of_length_pos (Nat.zero_lt_of_lt hlength)
  cases ns using List.reverseRecOn with
  | nil => exact absurd hlength (by simp)
  | append_singleton ns m =>
    rw [ofNumbers?_concat] at h
    obtain ⟨y, hy, rfl⟩ := Option.map_eq_some_iff.mp h
    exact ⟨n :: ns, m, y, rfl, hy, rfl⟩

/-- A chain of one number is a side. -/
theorem exists_unit_of_ofNumbers? (h : ofNumbers? ns = some x) (hlength : ns.length ≤ 1) :
    ∃ n, x = .unit (.surface n) := by
  match ns, hlength with
  | [], _ => cases h
  | [n], _ => exact ⟨n, (Option.some.inj h).symm⟩

/-- One more number is joined to the chain. -/
theorem ofNumbers?_append (h : ofNumbers? ns = some x) (m : Int) :
    ofNumbers? (ns ++ [m]) = some (.join .and x (.unit (.surface m))) := by
  obtain ⟨n, ns, rfl⟩ := List.exists_cons_of_ne_nil (show ns ≠ [] by rintro rfl; cases h)
  rw [List.cons_append, ofNumbers?_concat, h, Option.map_some]

/-- A chain has as many sides as numbers. -/
theorem length_sides_of_ofNumbers? (h : ofNumbers? ns = some x) : x.sides.length = ns.length := by
  obtain ⟨n, ns, rfl⟩ := List.exists_cons_of_ne_nil (show ns ≠ [] by rintro rfl; cases h)
  obtain ⟨y, hy, hsides, -⟩ := ofNumbers?_spec n ns
  obtain rfl := Option.some.inj (h.symm.trans hy)
  rw [hsides, List.length_map]

/-- How an intersection is bracketed does not show. -/
theorem written_assoc (x y z : RegionTree) :
    (join .and x (join .and y z)).written = (join .and (join .and x y) z).written := by
  have hunion (t u : RegionTree) : (join .and t u).isUnion = false := rfl
  simp [written, enclose, hunion, String.append_assoc]

/-- A chain is written as its numbers with blanks between them. -/
theorem written_of_ofNumbers? (h : ofNumbers? ns = some x) :
    x.written = " ".intercalate (ns.map toString) := by
  induction ns using List.reverseRecOn generalizing x with
  | nil => cases h
  | append_singleton ns m ih =>
    cases ns with
    | nil =>
      obtain rfl : .unit (.surface m) = x := Option.some.inj h
      simp [written, Side.written_surface]
    | cons n ns =>
      obtain ⟨y, hy, rfl⟩ := Option.map_eq_some_iff.mp ((ofNumbers?_concat n m ns).symm.trans h)
      have hunionl : y.isUnion = false := Region.isUnion_of_ofNumbers? hy
      have hunionr : (unit (.surface m)).isUnion = false := rfl
      rw [List.map_append, String.intercalate_append_of_ne_nil (by simp) (by simp), ← ih hy]
      simp [written, enclose, hunionl, hunionr, Side.written_surface]

/-- The chain with one more number, which is joined to its last one. -/
def narrowedChain (x : RegionTree) (m n : Int) : RegionTree :=
  .join .and x (.join .and (.unit (.surface m)) (.unit (.surface n)))

theorem written_narrowedChain {m : Int}
    (h : ofNumbers? ns = some (.join .and x (.unit (.surface m)))) (n : Int) :
    (narrowedChain x m n).written = " ".intercalate ((ns ++ [n]).map toString) := by
  rw [← written_of_ofNumbers? (ofNumbers?_append h n), narrowedChain, written_assoc]

end RegionTree

/-! ## Writing -/

namespace Region

open TransportDeck.Geometry

variable {g : Geometry} {r : Region} {x y : RegionTree} {i j k o id : Nat}
  {ids js ks claimed : List Nat}

/-- What is put behind the entries is the same whichever are in use. -/
theorem put_claimed (x : RegionTree) (g : Geometry) (cs : List Nat) :
    put x ⟨g, cs⟩ = ((put x ⟨g, []⟩).1, ⟨(put x ⟨g, []⟩).2.geometry, cs⟩) := by
  have bracket_claimed (needed : Bool) (id : Nat) (g : Geometry) (cs : List Nat) :
      bracket needed (id, ⟨g, cs⟩) = ((bracket needed (id, ⟨g, []⟩)).1,
        ⟨(bracket needed (id, ⟨g, []⟩)).2.geometry, cs⟩) := by
    cases needed <;> rfl
  have put_bracket {t : RegionTree} {g : Geometry} (needed : Bool)
      (ih : ∀ cs, put t ⟨g, cs⟩ = ((put t ⟨g, []⟩).1, ⟨(put t ⟨g, []⟩).2.geometry, cs⟩))
      (cs : List Nat) : bracket needed (put t ⟨g, cs⟩) = ((bracket needed (put t ⟨g, []⟩)).1,
        ⟨(bracket needed (put t ⟨g, []⟩)).2.geometry, cs⟩) := by
    rw [ih cs, bracket_claimed, ih []]
  induction x generalizing g cs with
  | unit s => rfl
  | join op l r ihl ihr =>
    simp only [put]
    rw [put_bracket _ (ihl g) cs, put_bracket _ (ihl g) []]
    rw [put_bracket _ (ihr _) cs, put_bracket _ (ihr _) []]
    rfl
  | complement t ih =>
    simp only [put]
    rw [put_bracket _ (ih g) cs, put_bracket _ (ih g) []]
    rfl

/-- What is printed leaves the entries as they are. -/
theorem Prints.entry?_eq {d : Draft} {w : Nat × Draft} {text : String} {e : GeometryEntry}
    (h : Prints d w text) (entry : d.geometry.entry? i = some e) :
    w.2.geometry.entry? i = some e := by
  obtain ⟨_, hgrows, -⟩ := h.grows
  exact (hgrows.frame i (Array.getElem?_eq_some_iff.mp entry).1).trans entry

/-- No operator is written into a run. -/
theorem writeBinary_of_run {d : Draft} {t : Option Target} {s : Shorthand} (op : RegionOp)
    (l k : Nat) (entry : d.entryAt? t = some (.run s)) :
    writeBinary op l k t d = d.push (freshBinary op l k) := by
  unfold writeBinary
  rw [entry]
  cases t <;> rfl

/-- A chain that is longer than the run that it was read from is written anew. -/
theorem emit_of_changed_run {s : Shorthand} {fuel : Nat}
    (node : r.nodes[i]? = some (.branch .and j (some k) (some o))) (ho : o < g.size)
    (hfree : o ∉ claimed) (entry : g.entry? (peel g g.size o) = some (.run s))
    (hl : Spans r.nodes j x js) (hr : Spans r.nodes k y ks)
    (hlength : s.numbers.length < x.sides.length + y.sides.length)
    (bare : ∀ a ∈ js ++ ks, ∀ n ∈ r.nodes[a]?, n.origin = none)
    (hfuel : (RegionTree.join .and x y).depth ≤ fuel + 1) :
    r.emit (fuel + 1) i ⟨g, claimed⟩ = put (.join .and x y) ⟨g, o :: claimed⟩ := by
  have hnode : r.node? i = some (.branch .and j (some k) (some o)) := node
  have hclaim := claim_of_free ho hfree
  simp only [RegionTree.depth] at hfuel
  rw [List.forall_mem_append] at bare
  -- The node stands for more numbers than the run.
  have hkept : r.isKeptRun i ⟨g, o :: claimed⟩ ⟨o, peel g g.size o⟩ = false := by
    rw [isKeptRun, entry]
    refine beq_eq_false_iff_ne.mpr fun hrun ↦ ?_
    obtain ⟨-, hcount, -⟩ := plainRun?_spec (.join node (by decide) hl hr) hrun
    simp only [RegionTree.sides, List.length_append] at hcount
    omega
  have hemitl (d : Draft) : r.emit fuel j d = put x d := hl.emit_of_bare bare.1 (by omega) d
  have hemitr (d : Draft) : r.emit fuel k d = put y d := hr.emit_of_bare bare.2 (by omega) d
  have hwrapl := hl.wrapOperand_eq (printsBare_put x ⟨g, o :: claimed⟩).bare
    (show RegionOp.and ≠ .complement by decide)
  have hprintsl := (printsBare_put x ⟨g, o :: claimed⟩).prints.bracket
    (RegionOp.and != .or && x.isUnion)
  generalize hleft : bracket (RegionOp.and != .or && x.isUnion) (put x ⟨g, o :: claimed⟩) = left
    at hwrapl hprintsl
  have hwrapr := hr.wrapOperand_eq (printsBare_put y left.2).bare
    (show RegionOp.and ≠ .complement by decide)
  have hprintsr := (printsBare_put y left.2).prints.bracket (RegionOp.and != .or && y.isUnion)
  simp only [emit, hnode, RegionNode.origin, hclaim, Draft.target?, Option.map_some,
    Option.filter_some, hkept, Bool.false_eq_true, if_false, hemitl, hwrapl,
    hemitr, hwrapr, put, hleft]
  exact writeBinary_of_run .and _ _ (hprintsr.entry?_eq (hprintsl.entry?_eq entry))

end Region

/-! ## Trees -/

namespace GeometryTree

/-- An intersection, perhaps in parentheses. -/
def isChain : GeometryTree → Bool
  | run s => decide (1 < s.numbers.length)
  | binary op _ _ _ => op == .intersection
  | group _ t _ => t.isChain
  | _ => false

/-- Runs stand behind the operands that they go on from. -/
def RunsFollow : GeometryTree → Prop
  | leaf _ => True
  | run _ => False
  | binary op l _ r => l.RunsFollow ∧ (r.RunsFollow ∨ op = .intersection ∧ ∃ s, r = .run s)
  | complement _ t | group _ t _ => t.RunsFollow

/-- The text with the number behind the last operand of the chain.  A run of more than one number is
spelled out there. -/
def narrowText (n : Int) (tol : Tolerance) : GeometryTree → String
  | run s =>
    if 1 < s.numbers.length then " ".intercalate ((s.numbers ++ [n]).map toString)
    else (s.render tol).text ++ (" " ++ toString n)
  | binary op l mark r =>
    if op = .intersection then (l.render tol).text ++ mark.text ++ r.narrowText n tol
    else ((binary op l mark r).render tol).text ++ (" " ++ toString n)
  | group opening t closing =>
    if t.isChain then opening.text ++ t.narrowText n tol ++ closing.text
    else ((group opening t closing).render tol).text ++ (" " ++ toString n)
  | t => (t.render tol).text ++ (" " ++ toString n)

/-- A union is in parentheses as an operand of an intersection. -/
def asOperand (t : GeometryTree) : GeometryTree :=
  if t.isUnion then group (.ofLiteral "(") t (.ofLiteral ")") else t

theorem narrowText_of_isChain_eq_false (n : Int) (tol : Tolerance) {t : GeometryTree}
    (h : t.isChain = false) : t.narrowText n tol = (t.render tol).text ++ (" " ++ toString n) := by
  cases t with
  | leaf | complement => rfl
  | run s => exact if_neg (of_decide_eq_false h)
  | binary op l mark r =>
    have hop : op ≠ .intersection := by simpa [isChain] using h
    exact if_neg hop
  | group opening t closing =>
    have ht : t.isChain = false := h
    rw [narrowText, ht, if_neg Bool.false_ne_true]

theorem asOperand_eq_self {t : GeometryTree} (h : t.isUnion = false) : t.asOperand = t := by
  rw [asOperand, h, if_neg Bool.false_ne_true]

theorem asOperand_of_isUnion {t : GeometryTree} (h : t.isUnion = true) :
    t.asOperand = group (.ofLiteral "(") t (.ofLiteral ")") := by
  rw [asOperand, if_pos h]

/-- What is read has a run only behind an operand. -/
theorem Parsed.runsFollow {level : PhraseLevel} {room : Nat} {tree : GeometryTree}
    {ts : List Token} {l : Option Layout} (h : tree.Parsed level room ts l) :
    tree.RunsFollow := by
  induction h with
  | leaf => trivial
  | run _ _ _ _ ih => exact ⟨ih, .inr ⟨rfl, _, rfl⟩⟩
  | intersection _ _ ihl ihr | union _ _ _ _ ihl ihr => exact ⟨ihl, .inl ihr⟩
  | group _ _ _ _ _ ih | complement _ _ _ ih | ofGroup _ ih | ofFactor _ ih
  | ofIntersection _ ih => exact ih

end GeometryTree

/-! ## Entries -/

namespace Geometry

variable {g : Geometry} {k id : Nat} {tree : GeometryTree} {ids : List Nat}

/-- A new number behind the entries, and behind that its intersection with one of them. -/
def joined (g : Geometry) (e : GeometryEntry) (k : Nat) : Geometry :=
  (g.push e).push (.branch (.binary .intersection k .gap g.size))

theorem size_joined (e : GeometryEntry) : (g.joined e k).size = g.size + 2 := by
  rw [joined, size_push, size_push]

theorem entry?_joined_of_lt (e : GeometryEntry) {i : Nat} (h : i < g.size) :
    Geometry.entry? (g.joined e k) i = g.entry? i := by
  rw [joined, entry?_push_of_lt (by rw [size_push]; omega), entry?_push_of_lt h]

theorem Holds.joined (h : g.Holds k tree ids) (f : Field) :
    (g.joined (.leaf f) k).Holds (g.size + 1) (.binary .intersection tree .gap (.leaf f))
      (ids ++ [g.size] ++ [g.size + 1]) := by
  have hleaf : Geometry.Holds (g.push (.leaf f)) g.size (.leaf f) [g.size] :=
    .leaf (entry?_push_size _ _)
  refine .binary ?_ rfl ((h.push _).push _) (hleaf.push _)
  rw [← size_push g (.leaf f)]
  exact entry?_push_size _ _

end Geometry

namespace Region

open TransportDeck.Geometry

/-! ## What has become of a tree -/

/-- At the place stands the tree with the number behind its chain, and only entries of the tree have
changed. -/
structure Narrowed (g g' : Geometry) (tree : GeometryTree) (n : Int) (id : Nat)
    (places : List Nat) : Prop where
  frame : ∀ a < g.size, a ∉ places → g'.entry? a = g.entry? a
  trailing : g'.trailing = g.trailing
  exists_tree : ∃ tree' places', g'.Holds id tree' places' ∧
    (∀ a ∈ places', a ∈ places ∨ g.size ≤ a) ∧
    places'.length + g.size ≤ places.length + g'.size ∧
      ∀ tol, (tree'.render tol).text = tree.narrowText n tol

namespace Narrowed

variable {g g₁ : Geometry} {tree left right : GeometryTree} {n : Int} {k k' l id : Nat}
  {places is ps : List Nat} {mark : Layout}

/-- The number is joined to something that is no chain. -/
theorem joined (h : g.Holds k tree places) (hchain : tree.isChain = false) :
    Narrowed g (g.joined (newLeaf (.surface n)) k) tree n (g.size + 1) places where
  frame a ha _ := entry?_joined_of_lt _ ha
  trailing := rfl
  exists_tree := by
    refine ⟨_, _, h.joined (newField (.surface n)), ?_, ?_, fun tol ↦ ?_⟩
    · simp only [List.mem_append, List.mem_singleton]
      rintro a ((ha | rfl) | rfl)
      · exact .inl ha
      · exact .inr le_rfl
      · exact .inr (Nat.le_succ _)
    · simp only [size_joined, List.length_append, List.length_singleton]
      omega
    · rw [GeometryTree.narrowText_of_isChain_eq_false n tol hchain, GeometryTree.render,
        GeometryTree.render, Rendered.text_append, Rendered.text_append, text_render_newField,
        Side.written_surface, String.append_assoc]
      rfl

/-- The chain is written anew. -/
theorem of_prints {cs : List Nat} {w : Nat × Draft} {text : String} (h : Prints ⟨g, cs⟩ w text)
    (htext : ∀ tol, tree.narrowText n tol = text) (places : List Nat) :
    Narrowed g w.2.geometry tree n w.1 places := by
  obtain ⟨⟨tree', hgrows, hrender⟩, htrailing⟩ := h
  refine ⟨fun a ha _ ↦ hgrows.frame a ha, htrailing, tree', _, hgrows.holds, fun a ha ↦ ?_, ?_,
    fun tol ↦ (hrender tol).trans (htext tol).symm⟩
  · exact .inr (List.mem_range'_1.mp ha).1
  · have hle : g.size ≤ w.2.geometry.size := hgrows.size_le
    rw [List.length_range']
    dsimp only
    omega

/-- An intersection takes up what its right operand has become. -/
theorem binary (h : Narrowed g g₁ right n k' ps) (hl : g.Holds l left is)
    (entry : g.entry? id = some (.branch (.binary .intersection l mark k)))
    (hnodup : (is ++ ps ++ [id]).Nodup) :
    Narrowed g (g₁.modify id (setOperands .intersection l k'))
      (.binary .intersection left mark right) n id (is ++ ps ++ [id]) := by
  obtain ⟨right', places, hright, hplaces, hcount, htext⟩ := h.exists_tree
  obtain ⟨hboth, -, hid⟩ := List.nodup_append.mp hnodup
  have hisps := (List.nodup_append.mp hboth).2.2
  have hnot : id ∉ is ++ ps := fun hmem ↦ hid id hmem id (List.mem_singleton_self _) rfl
  rw [List.mem_append, not_or] at hnot
  have hlt : id < g.size := (Array.getElem?_eq_some_iff.mp entry).1
  refine ⟨fun a ha hmem ↦ ?_, h.trailing, .binary .intersection left mark right',
    is ++ places ++ [id], ?_, fun a ha ↦ ?_, ?_, fun tol ↦ ?_⟩
  · simp only [List.mem_append, List.mem_singleton, not_or] at hmem
    rw [entry?_modify, if_neg (Ne.symm hmem.2), h.frame a ha hmem.1.2]
  · refine .binary ?_ rfl (hl.congr fun a ha ↦ ?_) (hright.congr fun a ha ↦ ?_)
    · rw [entry?_modify, if_pos rfl, h.frame id hlt hnot.2, entry]
      rfl
    · rw [entry?_modify, if_neg (ne_of_mem_of_not_mem ha hnot.1).symm,
        h.frame a (hl.lt_size a ha) fun hps ↦ hisps a ha a hps rfl]
    · rw [entry?_modify, if_neg]
      rintro rfl
      rcases hplaces id ha with hps | hge
      · exact hnot.2 hps
      · omega
  · simp only [List.mem_append, List.mem_singleton] at ha ⊢
    rcases ha with (ha | ha) | rfl
    · exact .inl (.inl (.inl ha))
    · exact (hplaces a ha).imp_left fun hps ↦ .inl (.inr hps)
    · exact .inl (.inr rfl)
  · simp only [List.length_append, List.length_singleton, size_modify]
    omega
  · rw [GeometryTree.narrowText, if_pos rfl, GeometryTree.render, Rendered.text_append,
      Rendered.text_append, htext tol]
    rfl

/-- Parentheses stay around the chain. -/
theorem group {opening closing : Layout} {c : Nat} (h : Narrowed g g₁ tree n c is)
    (entry : g.entry? id = some (.branch (.group opening c closing))) (hchain : tree.isChain = true)
    (hid : id ∉ is) : Narrowed g g₁ (.group opening tree closing) n id (is ++ [id]) := by
  obtain ⟨tree', places, hholds, hplaces, hcount, htext⟩ := h.exists_tree
  refine ⟨fun a ha hmem ↦ h.frame a ha fun his ↦ hmem (List.mem_append_left _ his), h.trailing,
    .group opening tree' closing, places ++ [id], ?_, fun a ha ↦ ?_, ?_, fun tol ↦ ?_⟩
  · exact .group ((h.frame id (Array.getElem?_eq_some_iff.mp entry).1 hid).trans entry) hholds
  · simp only [List.mem_append, List.mem_singleton] at ha ⊢
    rcases ha with ha | rfl
    · exact (hplaces a ha).imp_left .inl
    · exact .inl (.inr rfl)
  · simp only [List.length_append, List.length_singleton]
    omega
  · rw [GeometryTree.narrowText, if_pos hchain, GeometryTree.render, Rendered.text_append,
      Rendered.text_append, htext tol]
    rfl

/-- The whole geometry is written with the number behind its chain. -/
theorem text_render (h : Narrowed g g₁ tree n k places) (hlength : places.length ≤ g.size)
    (tol : Tolerance) : ((g₁.setRoot k).render tol).text =
      tree.narrowText n tol ++ layoutText g.trailing := by
  obtain ⟨tree', places', hholds, -, hcount, htext⟩ := h.exists_tree
  have hroot : (g₁.setRoot k).Holds k tree' places' := hholds.congr fun _ _ ↦ rfl
  have hsize : (g₁.setRoot k).size = g₁.size := rfl
  have hdepth : tree'.depth ≤ (g₁.setRoot k).size := by
    have hle := hholds.depth_le
    omega
  have htrailing : (g₁.setRoot k).trailing = g.trailing := h.trailing
  have hrender : (g₁.setRoot k).renderFrom tol (g₁.setRoot k).size k = tree'.render tol :=
    hroot.renderFrom_eq tol hdepth
  rw [Geometry.render, htrailing, Rendered.text_append, Rendered.text_ofText, ← htext tol]
  exact congrArg (·.text ++ _) hrender

end Narrowed

end Region

end TransportDeck
