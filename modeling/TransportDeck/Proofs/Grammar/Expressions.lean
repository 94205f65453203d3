import TransportDeck.Proofs.Grammar.Geometry
import TransportDeck.Proofs.Grammar.Nesting
import TransportDeck.Proofs.Node.Bare
import TransportDeck.Proofs.Node.Echo

/-!
# Geometries are expressions

The expression that the manual gives for a geometry: intersections bind more strongly than unions
and less than complements, and both associate to the left.  The arena of a geometry that was read
holds just such an expression, its operands before its operators, and the text of the tokens; it is
nested no deeper than the reader goes.  The grammar is a relation between tokens and the shape of
the tree that is built from them, whatever the layout in it, and everything that the reader builds
is derived in it.
-/

namespace TransportDeck

/-! ## What is built -/

/-- The tokens are a phrase that the tree stands for, and the layout behind it.  At the level of
groups stand numbers, too: a complement takes either.  No more than so many factors stand in one
another. -/
inductive Derivation : PhraseLevel → Nat → List Token → GeometryTree → Prop where
  | leaf {room : Nat} {t : Token} {ls : List Token} {f : Field} (kind : t.kind.isNumber = true)
      (behind : AllLayout ls) : Derivation .group (room + 1) (t :: ls) (.leaf f)
  | group {room : Nat} {m m' : Token} {ls ts ls' : List Token} {x : GeometryTree}
      {opening closing : Layout} (mark : m.kind = .leftParen) (layout : AllLayout ls)
      (inner : Derivation .union room ts x) (mark' : m'.kind = .rightParen)
        (behind : AllLayout ls') :
      Derivation .group (room + 1) (m :: (ls ++ (ts ++ m' :: ls'))) (.group opening x closing)
  | complement {room : Nat} {m : Token} {ls ts : List Token} {x : GeometryTree} {opening : Layout}
      (mark : m.kind = .complement) (layout : AllLayout ls)
        (operand : Derivation .group room ts x) :
      Derivation .factor (room + 1) (m :: (ls ++ ts)) (.complement opening x)
  | run {room : Nat} {t : Token} {ts ls : List Token} {x : GeometryTree} {s : Shorthand}
      {between : Layout} (left : Derivation .intersection room ts x)
        (token : t.kind = .shorthand s.kind)
      (kind : s.kind = .copies ∨ s.kind = .multiply) (behind : AllLayout ls) :
      Derivation .intersection room (ts ++ t :: ls) (.binary .intersection x between (.run s))
  | intersection {room : Nat} {ts us : List Token} {x y : GeometryTree} {between : Layout}
      (left : Derivation .intersection room ts x) (right : Derivation .factor room us y) :
      Derivation .intersection room (ts ++ us) (.binary .intersection x between y)
  | union {room : Nat} {m : Token} {ts ls us : List Token} {x y : GeometryTree} {between : Layout}
      (left : Derivation .union room ts x) (mark : m.kind = .colon) (layout : AllLayout ls)
      (right : Derivation .intersection room us y) :
      Derivation .union room (ts ++ m :: (ls ++ us)) (.binary .union x between y)
  | ofGroup {room : Nat} {ts : List Token} {x : GeometryTree} (h : Derivation .group room ts x) :
      Derivation .factor room ts x
  | ofFactor {room : Nat} {ts : List Token} {x : GeometryTree} (h : Derivation .factor room ts x) :
      Derivation .intersection room ts x
  | ofIntersection {room : Nat} {ts : List Token} {x : GeometryTree}
      (h : Derivation .intersection room ts x) : Derivation .union room ts x

/-! ## What is read -/

/-- A derivation says nothing about the layout in the tree. -/
theorem GeometryTree.Parsed.derivation {level : PhraseLevel} {room : Nat} {tree : GeometryTree}
    {ts : List Token} {l : Option Layout} (h : tree.Parsed level room ts l) :
    Derivation level room ts tree := by
  induction h with
  | leaf kind _ behind => exact .leaf kind behind
  | group mark layout _ mark' behind ih => exact .group mark layout ih mark' behind
  | complement mark layout _ ih => exact .complement mark layout ih
  | run _ token goesOn behind ih =>
    obtain ⟨id, h | h⟩ := goesOn
    · exact .run ih token (.inl (Shorthand.kind_of_copies h)) behind
    · exact .run ih token (.inr (Shorthand.kind_of_multiply h)) behind
  | intersection _ _ ihl ihr => exact .intersection ihl ihr
  | union _ mark layout _ ihl ihr => exact .union ihl mark layout ihr
  | ofGroup _ ih => exact .ofGroup ih
  | ofFactor _ ih => exact .ofFactor ih
  | ofIntersection _ ih => exact .ofIntersection ih

/-- The arena of a geometry that was read is a tree that is derived from the tokens. -/
theorem Production.reads_derivation (gr : Grammar) {c : Cursor} :
    Reads (geometry gr) c fun g ts ↦
      ∃ tree, g.IsTree tree ∧ Derivation .union (Limits.parseDepth - c.depth) ts tree :=
  (reads_geometry gr).mono fun _ _ ⟨tree, htree, hparsed⟩ ↦ ⟨tree, htree, hparsed.derivation⟩

/-! ## Entries -/

inductive EntryKind where
  | leaf
  | run
  | branch (op : GeometryOp)

namespace EntryKind

/-- A number, or something in parentheses. -/
def IsEnclosed (k : EntryKind) : Prop := k = .leaf ∨ k = .branch .group

/-- What stands in an intersection without being one. -/
def IsFactor (k : EntryKind) : Prop := k.IsEnclosed ∨ k = .run ∨ k = .branch .complement

def IsTerm (k : EntryKind) : Prop := k.IsFactor ∨ k = .branch .intersection

end EntryKind

def GeometryEntry.kind : GeometryEntry → EntryKind
  | leaf _ => .leaf
  | run _ => .run
  | branch b => .branch b.op

def GeometryTree.kind : GeometryTree → EntryKind
  | leaf _ => .leaf
  | run _ => .run
  | binary op .. => .branch op
  | complement .. => .branch .complement
  | group .. => .branch .group

namespace Geometry

def kindAt? (g : Geometry) (id : Nat) : Option EntryKind := (g.entry? id).map GeometryEntry.kind

/-- The operands of the branch are what the grammar lets its operator have. -/
def IsFormed (g : Geometry) (b : Branch) : Prop :=
  match b.op with
  | .intersection =>
    (∃ k ∈ g.kindAt? b.left, k.IsTerm) ∧ ∃ r ∈ b.right, ∃ k ∈ g.kindAt? r, k.IsFactor
  | .union => (∃ k, g.kindAt? b.left = some k) ∧ ∃ r ∈ b.right, ∃ k ∈ g.kindAt? r, k.IsTerm
  | .complement => (∃ k ∈ g.kindAt? b.left, k.IsEnclosed) ∧ b.right = none
  | .group => (∃ k, g.kindAt? b.left = some k) ∧ b.right = none

/-- Every branch is formed as the grammar says and stands above its operands, and the walk from the
root meets every entry, each once. -/
structure IsExpression (g : Geometry) : Prop where
  formed : ∀ i b, g.entry? i = some (.branch b) → g.IsFormed b
  above : ∀ i b, g.entry? i = some (.branch b) → b.left < i ∧ ∀ r ∈ b.right, r < i
  once : g.walk.Perm (List.range g.size)

variable {g : Geometry} {id room : Nat} {tree : GeometryTree} {ids : List Nat} {ts : List Token}
  {level : PhraseLevel}

namespace Holds

theorem kindAt?_eq (h : g.Holds id tree ids) : g.kindAt? id = some tree.kind := by
  cases h with
  | leaf entry | run entry | binary entry | complement entry | group entry =>
    rw [kindAt?, entry]
    rfl

/-- There is one tree below a place. -/
theorem tree_eq {x y : GeometryTree} {is js : List Nat} (h : g.Holds id x is)
    (h' : g.Holds id y js) : x = y := by
  induction h generalizing y js with
  | leaf entry | run entry =>
    cases h' with
    | leaf entry' | run entry' | binary entry' | complement entry' | group entry' =>
      cases entry.symm.trans entry' <;> rfl
  | binary entry isBinary _ _ ihl ihr =>
    cases h' with
    | leaf entry' | run entry' | complement entry' | group entry' => cases entry.symm.trans entry'
    | binary entry' _ hl hr =>
      cases entry.symm.trans entry'
      rw [ihl hl, ihr hr]
  | complement entry _ ih =>
    cases h' with
    | leaf entry' | run entry' | binary entry' | group entry' => cases entry.symm.trans entry'
    | complement entry' hc =>
      cases entry.symm.trans entry'
      rw [ih hc]
  | group entry _ ih =>
    cases h' with
    | leaf entry' | run entry' | binary entry' | complement entry' => cases entry.symm.trans entry'
    | group entry' hc =>
      cases entry.symm.trans entry'
      rw [ih hc]

/-- The walk meets the entries of the tree in another order. -/
theorem perm_walkFrom (h : g.Holds id tree ids) {fuel : Nat} (hfuel : tree.depth ≤ fuel) :
    (g.walkFrom fuel id).Perm ids := by
  induction h generalizing fuel with
  | leaf entry | run entry =>
    obtain ⟨n, rfl⟩ : ∃ n, fuel = n + 1 :=
      ⟨fuel - 1, by simp only [GeometryTree.depth] at hfuel; omega⟩
    simp only [walkFrom, entry]
    exact .refl _
  | @binary id l r op mark left right is js entry isBinary _ _ ihl ihr =>
    simp only [GeometryTree.depth] at hfuel
    obtain ⟨n, rfl⟩ : ∃ n, fuel = n + 1 := ⟨fuel - 1, by omega⟩
    have hl := @ihl n (by omega)
    have hr := @ihr n (by omega)
    simp only [walkFrom, entry, Branch.binary]
    exact ((hl.append hr).cons id).trans (List.perm_append_singleton id _).symm
  | @complement id c mark operand is entry _ ih | @group id c opening closing inner is entry _ ih =>
    simp only [GeometryTree.depth] at hfuel
    obtain ⟨n, rfl⟩ : ∃ n, fuel = n + 1 := ⟨fuel - 1, by omega⟩
    have hc := @ih n (by omega)
    simp only [walkFrom, entry, Branch.complement, Branch.group, List.append_nil]
    exact (hc.cons id).trans (List.perm_append_singleton id _).symm

/-- If the places of a tree increase, its operands stand below its operators. -/
theorem lt_of_branch (h : g.Holds id tree ids) (hsorted : ids.Pairwise (· < ·)) : ∀ i ∈ ids, ∀ b,
    g.entry? i = some (.branch b) → b.left < i ∧ ∀ r ∈ b.right, r < i := by
  induction h with
  | leaf entry | run entry =>
    rw [List.forall_mem_singleton, entry]
    rintro _ ⟨⟩
  | binary entry _ hl hr ihl ihr =>
    obtain ⟨hoperands, -, hbelow⟩ := List.pairwise_append.mp hsorted
    obtain ⟨hsortedl, hsortedr, -⟩ := List.pairwise_append.mp hoperands
    rw [List.forall_mem_append, List.forall_mem_append, List.forall_mem_singleton, entry]
    refine ⟨⟨ihl hsortedl, ihr hsortedr⟩, ?_⟩
    rintro _ ⟨⟩
    refine ⟨hbelow _ (List.mem_append_left _ hl.mem) _ (List.mem_singleton_self _), ?_⟩
    rintro _ ⟨⟩
    exact hbelow _ (List.mem_append_right _ hr.mem) _ (List.mem_singleton_self _)
  | complement entry hc ih | group entry hc ih =>
    obtain ⟨hoperands, -, hbelow⟩ := List.pairwise_append.mp hsorted
    rw [List.forall_mem_append, List.forall_mem_singleton, entry]
    refine ⟨ih hoperands, ?_⟩
    rintro _ ⟨⟩
    exact ⟨hbelow _ hc.mem _ (List.mem_singleton_self _), by rintro _ ⟨⟩⟩

end Holds

end Geometry

/-! ## Derivations -/

namespace GeometryTree

/-- The factors that stand in one another. -/
def nesting : GeometryTree → Nat
  | leaf _ | run _ => 1
  | binary _ l _ r => max l.nesting r.nesting
  | complement _ t | group _ t _ => t.nesting + 1

theorem nesting_pos (tree : GeometryTree) : 0 < tree.nesting := by
  induction tree with
  | leaf | run => exact Nat.one_pos
  | binary _ l _ r ihl => exact Nat.lt_of_lt_of_le ihl (Nat.le_max_left ..)
  | complement | group => exact Nat.succ_pos _

end GeometryTree

theorem Shorthand.IsRead.text_render_of_copies {s : Shorthand} (h : s.IsRead)
    (hkind : s.kind = .copies) (tol : Tolerance) : (s.render tol).text = s.source := by
  have hcount : (s.renderCount tol s.places).text = s.countToken :=
    h.count (by rw [hkind]; decide) tol
  have hplaces : s.places = s.members.length - s.leadCount := by
    simp [places, hkind, ShorthandKind.isInterpolation]
  rw [hplaces] at hcount
  simp [render, source, behindSource, hkind, ShorthandKind.isInterpolation, h.text_renderLead tol,
    hcount, String.append_assoc]

namespace Derivation

variable {g : Geometry} {id room : Nat} {tree : GeometryTree} {ids : List Nat} {ts : List Token}
  {level : PhraseLevel}

theorem nesting_le (h : Derivation level room ts tree) : tree.nesting ≤ room := by
  induction h with
  | leaf => exact Nat.succ_pos _
  | group _ _ _ _ _ ih | complement _ _ _ ih => exact Nat.succ_le_succ ih
  | @run _ _ _ _ x _ _ _ _ _ _ ih => exact Nat.max_le.mpr ⟨ih, x.nesting_pos.trans_le ih⟩
  | intersection _ _ ihl ihr | union _ _ _ _ ihl ihr => exact Nat.max_le.mpr ⟨ihl, ihr⟩
  | ofGroup _ ih | ofFactor _ ih | ofIntersection _ ih => exact ih

/-- What the level says about the kind of the root. -/
def Fits : PhraseLevel → EntryKind → Prop
  | .group, k => k.IsEnclosed
  | .factor, k => k.IsFactor
  | .intersection, k => k.IsTerm
  | .union, _ => True

theorem fits (h : Derivation level room ts tree) : Fits level tree.kind := by
  induction h with
  | leaf => exact .inl rfl
  | group => exact .inr rfl
  | complement => exact .inr (.inr rfl)
  | run | intersection => exact .inr rfl
  | union => trivial
  | ofGroup _ ih | ofFactor _ ih => exact .inl ih
  | ofIntersection => trivial

theorem isFormed (h : Derivation level room ts tree) (hholds : g.Holds id tree ids) :
    ∀ i ∈ ids, ∀ b, g.entry? i = some (.branch b) → g.IsFormed b := by
  induction h generalizing id ids with
  | leaf =>
    cases hholds with
    | leaf entry =>
      rw [List.forall_mem_singleton, entry]
      rintro _ ⟨⟩
  | group _ _ _ _ _ ih =>
    cases hholds with
    | group entry hc =>
      rw [List.forall_mem_append, List.forall_mem_singleton, entry]
      refine ⟨ih hc, ?_⟩
      rintro _ ⟨⟩
      exact ⟨⟨_, hc.kindAt?_eq⟩, rfl⟩
  | complement _ _ hoperand ih =>
    cases hholds with
    | complement entry hc =>
      rw [List.forall_mem_append, List.forall_mem_singleton, entry]
      refine ⟨ih hc, ?_⟩
      rintro _ ⟨⟩
      exact ⟨⟨_, hc.kindAt?_eq, hoperand.fits⟩, rfl⟩
  | run hleft _ _ _ ih =>
    cases hholds with
    | binary entry _ hl hr =>
      cases hr with
      | run entry' =>
        rw [List.forall_mem_append, List.forall_mem_append, List.forall_mem_singleton,
          List.forall_mem_singleton, entry, entry']
        refine ⟨⟨ih hl, by rintro _ ⟨⟩⟩, ?_⟩
        rintro _ ⟨⟩
        exact ⟨⟨_, hl.kindAt?_eq, hleft.fits⟩, _, rfl, .run, by rw [Geometry.kindAt?, entry']; rfl,
          .inr (.inl rfl)⟩
  | intersection hleft hright ihl ihr =>
    cases hholds with
    | binary entry _ hl hr =>
      rw [List.forall_mem_append, List.forall_mem_append, List.forall_mem_singleton, entry]
      refine ⟨⟨ihl hl, ihr hr⟩, ?_⟩
      rintro _ ⟨⟩
      exact ⟨⟨_, hl.kindAt?_eq, hleft.fits⟩, _, rfl, _, hr.kindAt?_eq, hright.fits⟩
  | union _ _ _ hright ihl ihr =>
    cases hholds with
    | binary entry _ hl hr =>
      rw [List.forall_mem_append, List.forall_mem_append, List.forall_mem_singleton, entry]
      refine ⟨⟨ihl hl, ihr hr⟩, ?_⟩
      rintro _ ⟨⟩
      exact ⟨⟨_, hl.kindAt?_eq⟩, _, rfl, _, hr.kindAt?_eq, hright.fits⟩
  | ofGroup _ ih | ofFactor _ ih | ofIntersection _ ih => exact ih hholds

/-- Where no token multiplies, all runs are copies, and these are written as they were read. -/
theorem text_render (h : Derivation level room ts tree) (hread : tree.IsRead)
    (hts : ∀ t ∈ ts, t.kind ≠ .shorthand .multiply) (tol : Tolerance) :
    (tree.render tol).text = tree.source := by
  have mem_left {us : List Token} {t : Token} (vs : List Token) (ht : t ∈ us) : t ∈ us ++ vs :=
    List.mem_append_left vs ht
  have mem_right {us : List Token} {t : Token} (vs : List Token) (ht : t ∈ us) : t ∈ vs ++ us :=
    List.mem_append_right vs ht
  induction h with
  | leaf => exact congrArg Rendered.text (Field.IsRead.render hread.1 tol)
  | group _ _ _ _ _ ih =>
    have hinner := ih hread fun t ht ↦ hts t (.tail _ (mem_right _ (mem_left _ ht)))
    simp [GeometryTree.render, GeometryTree.source, hinner]
  | complement _ _ _ ih =>
    have hoperand := ih hread fun t ht ↦ hts t (.tail _ (mem_right _ ht))
    simp [GeometryTree.render, GeometryTree.source, hoperand]
  | @run _ t _ _ _ s _ _ token kind _ ih =>
    have hleft := ih hread.1 fun t ht ↦ hts t (mem_left _ ht)
    have hcopies : s.kind = .copies := by
      refine kind.resolve_right fun hmultiply ↦ hts t (mem_right _ (List.mem_cons_self ..)) ?_
      rw [token, hmultiply]
    have hright : (s.render tol).text = s.source :=
      Shorthand.IsRead.text_render_of_copies hread.2 hcopies tol
    simp [GeometryTree.render, GeometryTree.source, hleft, hright]
  | intersection _ _ ihl ihr =>
    have hleft := ihl hread.1 fun t ht ↦ hts t (mem_left _ ht)
    have hright := ihr hread.2 fun t ht ↦ hts t (mem_right _ ht)
    simp [GeometryTree.render, GeometryTree.source, hleft, hright]
  | union _ _ _ _ ihl ihr =>
    have hleft := ihl hread.1 fun t ht ↦ hts t (mem_left _ ht)
    have hright := ihr hread.2 fun t ht ↦ hts t (mem_right _ (.tail _ (mem_right _ ht)))
    simp [GeometryTree.render, GeometryTree.source, hleft, hright]
  | ofGroup _ ih | ofFactor _ ih | ofIntersection _ ih => exact ih hread hts

end Derivation

/-! ## Geometries -/

theorem Geometry.IsTree.isExpression {g : Geometry} {tree : GeometryTree} {room : Nat}
    {ts : List Token} (h : g.IsTree tree) (hderives : Derivation .union room ts tree) :
    g.IsExpression := by
  have hmem {i : Nat} {b : Branch} (hi : g.entry? i = some (.branch b)) : i ∈ List.range g.size :=
    List.mem_range.mpr (Array.getElem?_eq_some_iff.mp hi).1
  have hdepth := h.holds.depth_le
  rw [List.length_range] at hdepth
  exact ⟨fun i b hi ↦ hderives.isFormed h.holds i (hmem hi) b hi,
    fun i b hi ↦ h.holds.lt_of_branch List.pairwise_lt_range i (hmem hi) b hi,
    h.holds.perm_walkFrom hdepth⟩

namespace Production

/-- From any place in a record, what is read as a geometry is an expression, and its text is that of
the tokens unless one of them multiplies.  It is nested no deeper than there are levels; factors
that are opened in one another beyond them are an error.  Read or not, no level is left open. -/
theorem geometry_isExpression (gr : Grammar) {mode : LexMode} {text : String} {tokens : List Token}
    {c : Cursor} (htokens : tokenize mode text = .ok tokens) (hplace : c.rest <:+ tokens) :
    (∀ g c', (geometry gr).run c = (.ok g, c') → g.IsExpression ∧
      (∃ tree, g.IsTree tree ∧ c.depth + tree.nesting ≤ Limits.parseDepth) ∧
      ∃ ts, c.rest = ts ++ c'.rest ∧
        ((∀ t ∈ ts, t.kind ≠ .shorthand .multiply) → ∀ tol, (g.render tol).text = textOf ts)) ∧
    (gr.allows .geometry = true → ∀ n, Opens n c.rest → Limits.parseDepth ≤ c.depth + n →
      ∃ span c', (geometry gr).run c = (.error (.nestedTooDeep span), c')) ∧
    ((geometry gr).run c).2.depth = c.depth := by
  have hlex : c.IsLexed := fun t ht ↦ Lexer.spells_of_tokensFrom htokens t (hplace.subset ht)
  refine ⟨fun g c' hrun ↦ ?_, fun hgr n hopens hdeep ↦ exists_nestedTooDeep hgr hopens hdeep,
    keepsDepth_geometry gr c⟩
  obtain ⟨-, ts, hts, tree, htree, hread, hsource⟩ := Reads.geometry gr hlex g c' hrun
  obtain ⟨-, us, hus, tree', htree', hderives⟩ := reads_derivation gr hlex g c' hrun
  obtain rfl := List.append_cancel_right (hts.symm.trans hus)
  obtain rfl := htree.holds.tree_eq htree'.holds
  refine ⟨htree.isExpression hderives, ⟨tree, htree, ?_⟩, ts, hts, fun hmultiply tol ↦ ?_⟩
  · have hle := hderives.nesting_le
    have hpos := tree.nesting_pos
    omega
  · rw [htree.render_eq, Rendered.text_append, Rendered.text_ofText,
      hderives.text_render hread hmultiply tol, ← htree.source_eq, hsource]

/-- A union in an intersection, a run behind its last factor, and a complement. -/
theorem geometry_isExpression_of_text : ∃ tokens g c',
    tokenize .cell "1 (2:-3 1R) #4" = .ok tokens ∧
      (geometry .cell).run (.of (.of tokens)) = (.ok g, c') ∧ g.IsExpression ∧ c'.depth = 0 := by
  have hcomputed : ((tokenize .cell "1 (2:-3 1R) #4").toOption.any fun tokens ↦
      ((geometry .cell).run (.of (.of tokens))).1.toOption.isSome) = true := by decide +kernel
  obtain ⟨tokens, htokens, hsome⟩ := Except.exists_of_any hcomputed
  have hplace : (Cursor.of (.of tokens)).rest <:+ tokens := List.suffix_rfl
  obtain ⟨hread, -, hdepth⟩ := geometry_isExpression .cell htokens hplace
  rcases hrun : (geometry .cell).run (.of (.of tokens)) with ⟨e | g, c'⟩
  · rw [hrun] at hsome
    cases hsome
  · rw [hrun] at hdepth
    exact ⟨tokens, g, c', htokens, hrun, (hread g c' hrun).1, hdepth⟩

end Production

end TransportDeck
