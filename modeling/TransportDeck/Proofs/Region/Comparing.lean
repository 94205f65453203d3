import TransportDeck.Proofs.Number.Integers
import TransportDeck.Proofs.Region.Operations
import TransportDeck.Proofs.Region.Writing

/-!
# Comparing regions

A region is written in full parentheses, so its text can be read in one way only: regions with the
same text are the same tree.  Comparing two regions decides just that, wherever their nodes stand
and whatever these remember, unless it meets a side abreast of a combination.
-/

namespace TransportDeck

/-! ## Sides -/

namespace Side

/-- A side that a number names. -/
def IsNamed (s : Side) : Prop := (∃ n, s = surface n) ∨ ∃ n, s = cell n

theorem toList_text_surface (n : Int) :
    (surface n).text.toList = (if n < 0 then '-' else '+') :: Nat.toDigits 10 n.natAbs := by
  rw [text, signed_surface, surface, if_neg (by simp), String.toList_append, toList_toString_int]
  split_ifs <;> rfl

theorem toList_text_cell (n : Int) : (cell n).text.toList = Nat.toDigits 10 n.natAbs := by
  rw [text, cell, if_pos rfl, toList_toString_int, if_neg (by simp)]
  rfl

end Side

/-- No digits of a number that ends here go on. -/
def EndsDigits (rest : List Char) : Prop := ∀ c ∈ rest.head?, c.isDigit = false

theorem toDigits_append_inj {m n : Nat} {rest rest' : List Char} (hrest : EndsDigits rest)
    (hrest' : EndsDigits rest') (h : Nat.toDigits 10 m ++ rest = Nat.toDigits 10 n ++ rest') :
    m = n ∧ rest = rest' := by
  have hdigits (k : Nat) (cs : List Char) (hcs : EndsDigits cs) :
      (Nat.toDigits 10 k ++ cs).takeWhile Char.isDigit = Nat.toDigits 10 k := by
    rw [List.takeWhile_append_of_pos isDigit_of_mem_toDigits]
    cases cs with
    | nil => simp
    | cons c cs => simp [hcs c rfl]
  have hfront : Nat.toDigits 10 m = Nat.toDigits 10 n := by
    rw [← hdigits m rest hrest, h, hdigits n rest' hrest']
  refine ⟨?_, List.append_cancel_left (hfront ▸ h)⟩
  have hvalue (k : Nat) : Nat.ofDigitChars 10 (Nat.toDigits 10 k) 0 = k :=
    Nat.ofDigitChars_toDigits (by decide) (by decide)
  rw [← hvalue m, hfront, hvalue n]

namespace Side

variable {s t : Side}

/-- The text of a side starts with a sign or a digit. -/
theorem IsNamed.exists_cons (h : s.IsNamed) :
    ∃ c cs, s.text.toList = c :: cs ∧ c ≠ '(' ∧ c ≠ '#' := by
  rcases h with ⟨n, rfl⟩ | ⟨n, rfl⟩
  · refine ⟨_, _, toList_text_surface n, ?_⟩
    split_ifs <;> decide
  · obtain ⟨c, cs, hcs⟩ := List.exists_cons_of_ne_nil (toDigits_ne_nil n.natAbs)
    have hdigit : c.isDigit = true := isDigit_of_mem_toDigits c (hcs ▸ List.mem_cons_self ..)
    refine ⟨c, cs, (toList_text_cell n).trans hcs, ?_, ?_⟩ <;> rintro rfl <;> cases hdigit

/-- A sign tells a surface from a cell, and the digits tell which. -/
theorem text_append_inj (hs : s.IsNamed) (ht : t.IsNamed) {rest rest' : List Char}
    (hrest : EndsDigits rest) (hrest' : EndsDigits rest')
    (h : s.text.toList ++ rest = t.text.toList ++ rest') : s = t ∧ rest = rest' := by
  have hsign (m n : Int) (cs cs' : List Char) :
      (if m < 0 then '-' else '+') :: cs ≠ Nat.toDigits 10 n.natAbs ++ cs' := by
    intro heq
    obtain ⟨c, ds, hds⟩ := List.exists_cons_of_ne_nil (toDigits_ne_nil n.natAbs)
    have hdigit : c.isDigit = true := isDigit_of_mem_toDigits c (hds ▸ List.mem_cons_self ..)
    rw [hds, List.cons_append, List.cons.injEq] at heq
    rw [← heq.1] at hdigit
    split_ifs at hdigit <;> cases hdigit
  rcases hs with ⟨m, rfl⟩ | ⟨m, rfl⟩ <;> rcases ht with ⟨n, rfl⟩ | ⟨n, rfl⟩
  · rw [toList_text_surface, toList_text_surface, List.cons_append, List.cons_append,
      List.cons.injEq] at h
    obtain ⟨habs, hrests⟩ := toDigits_append_inj hrest hrest' h.2
    have hsigns : m < 0 ↔ n < 0 := by
      have hmark := h.1
      split_ifs at hmark with hm hn hn
      · exact iff_of_true hm hn
      · cases hmark
      · cases hmark
      · exact iff_of_false hm hn
    have hmn : m = n := by omega
    exact ⟨congrArg surface hmn, hrests⟩
  · rw [toList_text_surface, toList_text_cell] at h
    exact absurd h (hsign m n _ _)
  · rw [toList_text_surface, toList_text_cell] at h
    exact absurd h.symm (hsign n m _ _)
  · rw [toList_text_cell, toList_text_cell] at h
    obtain ⟨habs, hrests⟩ := toDigits_append_inj hrest hrest' h
    exact ⟨by rw [cell, cell, habs], hrests⟩

end Side

/-! ## Trees -/

namespace RegionTree

/-- A tree in full parentheses. -/
def text : RegionTree → String
  | unit s => s.text
  | join op l r => "(" ++ l.text ++ (if op = .and then " * " else " : ") ++ r.text ++ ")"
  | complement t => "#" ++ t.text

/-- The operators are those of a tree, and its sides have names. -/
def IsNamed : RegionTree → Prop
  | unit s => s.IsNamed
  | join op l r => op ≠ .complement ∧ l.IsNamed ∧ r.IsNamed
  | complement t => t.IsNamed

def kindName : RegionTree → String
  | unit _ => "unit half-space"
  | _ => "half-space"

/-- Compares trees from the top down and from left to right, up to the first difference. -/
def compare : RegionTree → RegionTree → Except RegionError Bool
  | unit s, unit t => .ok (s = t)
  | join op l r, join op' l' r' =>
    if op = op' then
      match l.compare l' with
      | .ok true => r.compare r'
      | other => other
    else .ok false
  | complement t, complement t' => t.compare t'
  | join .., complement _ => .ok false
  | complement _, join .. => .ok false
  | x, y => .error (.incomparable x.kindName y.kindName)

theorem compare_eq_true_iff {x y : RegionTree} : x.compare y = .ok true ↔ x = y := by
  induction x generalizing y with
  | unit s => cases y <;> simp [compare]
  | join op l r ihl ihr =>
    cases y with
    | unit => simp [compare]
    | complement => simp [compare]
    | join op' l' r' =>
      rw [compare, join.injEq, ← ihl (y := l'), ← ihr (y := r')]
      split_ifs with hop
      · split
        · next hleft => simp [hop, hleft]
        · next hleft => exact iff_of_false hleft fun h ↦ hleft h.2.1
      · simp [hop]
  | complement t ih => cases y <;> simp [compare, ih]

/-- Either way round there is no answer, or the same one. -/
theorem toOption_compare_comm (x y : RegionTree) :
    (x.compare y).toOption = (y.compare x).toOption := by
  induction x generalizing y with
  | unit s =>
    cases y with
    | unit t => rw [compare, compare, decide_eq_decide.mpr eq_comm]
    | join | complement => rfl
  | complement t ih =>
    cases y with
    | complement t' => exact ih t'
    | unit | join => rfl
  | join op l r ihl ihr =>
    cases y with
    | unit | complement => rfl
    | join op' l' r' =>
      have hleft := ihl l'
      rw [compare, compare]
      by_cases hop : op = op'
      · rw [if_pos hop, if_pos hop.symm]
        rcases hl : l.compare l' with e | _ | _ <;> rcases hl' : l'.compare l with e' | _ | _ <;>
          rw [hl, hl'] at hleft <;> cases hleft
        · rfl
        · exact ihr r'
      · rw [if_neg hop, if_neg (Ne.symm hop)]

/-- A text that starts with that of a tree starts with the text of no other one. -/
theorem text_append_inj {x y : RegionTree} (hx : x.IsNamed) (hy : y.IsNamed)
    {rest rest' : List Char} (hrest : EndsDigits rest) (hrest' : EndsDigits rest')
    (h : x.text.toList ++ rest = y.text.toList ++ rest') : x = y ∧ rest = rest' := by
  -- A combination starts with a mark of its own.
  have hjoin (op : RegionOp) (l r : RegionTree) (cs : List Char) :
      (join op l r).text.toList ++ cs = '(' :: (l.text.toList ++
        ((if op = .and then " * " else " : ").toList ++ (r.text.toList ++ ')' :: cs))) := by
    simp [text]
  have hcomplement (t : RegionTree) (cs : List Char) :
      (complement t).text.toList ++ cs = '#' :: (t.text.toList ++ cs) := by
    simp [text]
  have hclosing (cs : List Char) : EndsDigits (')' :: cs) := by rintro _ ⟨⟩; rfl
  have hmark (op : RegionOp) (cs : List Char) :
      EndsDigits ((if op = .and then " * " else " : ").toList ++ cs) := by
    split_ifs <;> rintro _ ⟨⟩ <;> rfl
  induction x generalizing y rest rest' with
  | unit s =>
    obtain ⟨c, cs, hcs, hopening, hcross⟩ := Side.IsNamed.exists_cons hx
    cases y with
    | unit t =>
      obtain ⟨rfl, hrests⟩ := Side.text_append_inj hx hy hrest hrest' h
      exact ⟨rfl, hrests⟩
    | join op l r =>
      rw [hjoin, text, hcs] at h
      exact absurd (List.cons.inj h).1 hopening
    | complement t =>
      rw [hcomplement, text, hcs] at h
      exact absurd (List.cons.inj h).1 hcross
  | join op l r ihl ihr =>
    rw [hjoin] at h
    cases y with
    | unit s =>
      obtain ⟨c, cs, hcs, hopening, -⟩ := Side.IsNamed.exists_cons hy
      rw [text, hcs] at h
      exact absurd (List.cons.inj h).1.symm hopening
    | complement t =>
      rw [hcomplement] at h
      exact absurd (List.cons.inj h).1 (by decide)
    | join op' l' r' =>
      rw [hjoin] at h
      obtain ⟨rfl, hright⟩ := ihl hx.2.1 hy.2.1 (hmark _ _) (hmark _ _) (List.cons.inj h).2
      have hop : op = op' := by
        obtain ⟨hnot, -⟩ := hx
        obtain ⟨hnot', -⟩ := hy
        cases op <;> cases op' <;> simp_all
      subst hop
      obtain ⟨rfl, hrests⟩ :=
        ihr hx.2.2 hy.2.2 (hclosing _) (hclosing _) ((List.append_right_inj _).mp hright)
      exact ⟨rfl, (List.cons.inj hrests).2⟩
  | complement t ih =>
    rw [hcomplement] at h
    cases y with
    | unit s =>
      obtain ⟨c, cs, hcs, -, hcross⟩ := Side.IsNamed.exists_cons hy
      rw [text, hcs] at h
      exact absurd (List.cons.inj h).1.symm hcross
    | join op l r =>
      rw [hjoin] at h
      exact absurd (List.cons.inj h).1 (by decide)
    | complement t' =>
      rw [hcomplement] at h
      have hnamed : t'.IsNamed := hy
      obtain ⟨rfl, hrests⟩ := ih hx hnamed hrest hrest' (List.cons.inj h).2
      exact ⟨rfl, hrests⟩

theorem text_inj {x y : RegionTree} (hx : x.IsNamed) (hy : y.IsNamed) (h : x.text = y.text) :
    x = y :=
  have hnil : EndsDigits [] := by rintro _ ⟨⟩
  (text_append_inj hx hy hnil hnil (by rw [h])).1

theorem IsProper.isNamed_of_mem_sides {x : RegionTree} (h : x.IsProper) :
    ∀ s ∈ x.sides, s.IsNamed := by
  induction x with
  | unit s => exact List.forall_mem_singleton.mpr (.inl h)
  | join op l r ihl ihr => exact List.forall_mem_append.mpr ⟨ihl h.1, ihr h.2⟩
  | complement t ih =>
    rcases h with h | ⟨n, rfl⟩
    · exact ih h
    · exact List.forall_mem_singleton.mpr (.inr ⟨n, rfl⟩)

end RegionTree

/-! ## Arenas -/

namespace Region

variable {a b r : Region} {i j : Nat} {x y : RegionTree} {is js : List Nat} {fuel : Nat}

namespace Spans

theorem textAt_eq (h : Spans r.nodes i x is) (hfuel : x.depth ≤ fuel) :
    r.textAt fuel i = x.text := by
  induction h generalizing fuel with
  | @unit id s o node =>
    have hnode : r.node? id = some (.unit s o) := node
    obtain ⟨n, rfl⟩ : ∃ n, fuel = n + 1 :=
      ⟨fuel - 1, by simp only [RegionTree.depth] at hfuel; omega⟩
    simp only [textAt, hnode, RegionTree.text]
  | @join id l rt op o left right is js node isJoin _ _ ihl ihr =>
    have hnode : r.node? id = some (.branch op l (some rt) o) := node
    simp only [RegionTree.depth] at hfuel
    obtain ⟨n, rfl⟩ : ∃ n, fuel = n + 1 := ⟨fuel - 1, by omega⟩
    have hl : r.textAt n l = left.text := ihl (by omega)
    have hr : r.textAt n rt = right.text := ihr (by omega)
    cases op with
    | and => simp [textAt, hnode, hl, hr, RegionTree.text]
    | or => simp [textAt, hnode, hl, hr, RegionTree.text]
    | complement => exact absurd rfl isJoin
  | @complement id c o operand is node _ ih =>
    have hnode : r.node? id = some (.branch .complement c none o) := node
    simp only [RegionTree.depth] at hfuel
    obtain ⟨n, rfl⟩ : ∃ n, fuel = n + 1 := ⟨fuel - 1, by omega⟩
    have hc : r.textAt n c = operand.text := ih (by omega)
    simp only [textAt, hnode, hc, RegionTree.text]

theorem isNamed (h : Spans r.nodes i x is) (hsides : ∀ s ∈ x.sides, s.IsNamed) : x.IsNamed := by
  induction h with
  | unit => exact hsides _ (List.mem_singleton_self _)
  | join _ isJoin _ _ ihl ihr =>
    obtain ⟨hl, hr⟩ := List.forall_mem_append.mp hsides
    exact ⟨isJoin, ihl hl, ihr hr⟩
  | complement _ _ ih => exact ih hsides

/-- The comparison sees nothing of the arenas but the trees. -/
theorem sameAt_eq (h : Spans a.nodes i x is) (h' : Spans b.nodes j y js) (hfuel : x.depth ≤ fuel) :
    sameAt a b fuel i j = x.compare y := by
  induction h generalizing fuel j y js with
  | @unit id s o node =>
    have hnode : a.node? id = some (.unit s o) := node
    obtain ⟨n, rfl⟩ : ∃ n, fuel = n + 1 :=
      ⟨fuel - 1, by simp only [RegionTree.depth] at hfuel; omega⟩
    cases h' with
    | @unit _ t o' node' =>
      have hnode' : b.node? j = some (.unit t o') := node'
      simp only [sameAt, hnode, hnode', RegionTree.compare]
    | @join _ l rt op o' _ _ _ _ node' =>
      have hnode' : b.node? j = some (.branch op l (some rt) o') := node'
      simp only [sameAt, hnode, hnode', RegionTree.compare,
        RegionNode.kindName, RegionTree.kindName]
    | @complement _ c o' _ _ node' =>
      have hnode' : b.node? j = some (.branch .complement c none o') := node'
      simp only [sameAt, hnode, hnode', RegionTree.compare,
        RegionNode.kindName, RegionTree.kindName]
  | @join id l rt op o left right _ _ node isJoin _ _ ihl ihr =>
    have hnode : a.node? id = some (.branch op l (some rt) o) := node
    simp only [RegionTree.depth] at hfuel
    obtain ⟨n, rfl⟩ : ∃ n, fuel = n + 1 := ⟨fuel - 1, by omega⟩
    cases h' with
    | @unit _ t o' node' =>
      have hnode' : b.node? j = some (.unit t o') := node'
      simp only [sameAt, hnode, hnode', RegionTree.compare,
        RegionNode.kindName, RegionTree.kindName]
    | @complement _ c o' _ _ node' =>
      have hnode' : b.node? j = some (.branch .complement c none o') := node'
      simp [sameAt, hnode, hnode', RegionTree.compare]
    | @join _ l' rt' op' o' left' right' _ _ node' _ hl' hr' =>
      have hnode' : b.node? j = some (.branch op' l' (some rt') o') := node'
      have hl : sameAt a b n l l' = left.compare left' := ihl hl' (by omega)
      have hr : sameAt a b n rt rt' = right.compare right' := ihr hr' (by omega)
      simp only [sameAt, hnode, hnode', hl, hr, RegionTree.compare]
      by_cases hop : op = op'
      · rw [if_neg (by simp [hop]), if_pos hop]
        rcases left.compare left' with e | _ | _ <;> rfl
      · rw [if_pos (by simp [hop]), if_neg hop]
  | @complement id c o operand _ node _ ih =>
    have hnode : a.node? id = some (.branch .complement c none o) := node
    simp only [RegionTree.depth] at hfuel
    obtain ⟨n, rfl⟩ : ∃ n, fuel = n + 1 := ⟨fuel - 1, by omega⟩
    cases h' with
    | @unit _ t o' node' =>
      have hnode' : b.node? j = some (.unit t o') := node'
      simp only [sameAt, hnode, hnode', RegionTree.compare,
        RegionNode.kindName, RegionTree.kindName]
    | @join _ l rt op o' _ _ _ _ node' isJoin =>
      have hnode' : b.node? j = some (.branch op l (some rt) o') := node'
      simp [sameAt, hnode, hnode', RegionTree.compare]
    | @complement _ c' o' operand' _ node' hc' =>
      have hnode' : b.node? j = some (.branch .complement c' none o') := node'
      have hc : sameAt a b n c c' = operand.compare operand' := ih hc' (by omega)
      simp only [sameAt, hnode, hnode', hc, RegionTree.compare]
      rcases operand.compare operand' with e | _ | _ <;> rfl

end Spans

namespace IsTree

theorem text_eq (h : r.IsTree x) : r.text = x.text := by
  obtain ⟨ids, hspans, hnodup⟩ := h
  exact hspans.textAt_eq (hspans.depth_le_size hnodup)

theorem same_eq (ha : a.IsTree x) (hb : b.IsTree y) : a.same b = x.compare y := by
  obtain ⟨is, hspansa, hnodup⟩ := ha
  obtain ⟨js, hspansb, -⟩ := hb
  exact hspansa.sameAt_eq hspansb (hspansa.depth_le_size hnodup)

theorem same_eq_true_iff (ha : a.IsTree x) (hb : b.IsTree y) : a.same b = .ok true ↔ x = y := by
  rw [ha.same_eq hb, RegionTree.compare_eq_true_iff]

end IsTree

/-! ## Lockstep -/

/-- Operands at the same position below nodes that have the same operator and as many operands. -/
inductive Abreast (a b : Region) : Nat × Nat → Nat × Nat → Prop where
  | left {i j l l' : Nat} {op : RegionOp} {r r' o o' : Option Nat}
      (node : a.node? i = some (.branch op l r o)) (node' : b.node? j = some (.branch op l' r' o'))
      (arity : r.isSome = r'.isSome) : Abreast a b (i, j) (l, l')
  | right {i j l l' r r' : Nat} {op : RegionOp} {o o' : Option Nat}
      (node : a.node? i = some (.branch op l (some r) o))
      (node' : b.node? j = some (.branch op l' (some r') o')) : Abreast a b (i, j) (r, r')

/-- A walk down both regions at once comes to these two places. -/
def Lockstep (a b : Region) (i j : Nat) : Prop :=
  Relation.ReflTransGen (Abreast a b) (a.root, b.root) (i, j)

/-- One of the two nodes is a side and the other one a combination, and the error names both. -/
def Clash (a b : Region) (i j : Nat) (e : RegionError) : Prop :=
  ∃ m n, a.node? i = some m ∧ b.node? j = some n ∧ m.side?.isSome ≠ n.side?.isSome ∧
    e = .incomparable m.kindName n.kindName

/-- The comparison fails nowhere but at a clash that it gets to. -/
theorem Spans.exists_clash {e : RegionError} (h : Spans a.nodes i x is) (h' : Spans b.nodes j y js)
    (herror : x.compare y = .error e) :
    ∃ k l, Relation.ReflTransGen (Abreast a b) (i, j) (k, l) ∧ Clash a b k l e := by
  induction h generalizing j y js with
  | unit node =>
    cases h' with
    | unit => cases herror
    | join node' | complement node' =>
      cases herror
      exact ⟨_, _, .refl, _, _, node, node', by simp [RegionNode.side?], rfl⟩
  | @join id l rt op o left right _ _ node _ _ _ ihl ihr =>
    cases h' with
    | unit node' =>
      cases herror
      exact ⟨_, _, .refl, _, _, node, node', by simp [RegionNode.side?], rfl⟩
    | complement => cases herror
    | @join _ l' rt' op' o' left' right' _ _ node' _ hl' hr' =>
      rw [RegionTree.compare] at herror
      split_ifs at herror with hop
      subst hop
      split at herror
      · obtain ⟨k, m, hpath, hclash⟩ := ihr hr' herror
        exact ⟨k, m, .head (.right node node') hpath, hclash⟩
      · obtain ⟨k, m, hpath, hclash⟩ := ihl hl' herror
        exact ⟨k, m, .head (.left node node' rfl) hpath, hclash⟩
  | complement node _ ih =>
    cases h' with
    | unit node' =>
      cases herror
      exact ⟨_, _, .refl, _, _, node, node', by simp [RegionNode.side?], rfl⟩
    | join => cases herror
    | complement node' hc' =>
      obtain ⟨k, m, hpath, hclash⟩ := ih hc' herror
      exact ⟨k, m, .head (.left node node' rfl) hpath, hclash⟩

/-! ## Regions from named sides -/

theorem Made.isNamed_of_combine {op : RegionOp} (hop : op ≠ .complement) (ha : Made Side.IsNamed a)
    (hb : Made Side.IsNamed b) (hnameda : ∀ s ∈ a.sides, s.IsNamed)
    (hnamedb : ∀ s ∈ b.sides, s.IsNamed) :
    (∀ s ∈ (Region.combine op a b).sides, s.IsNamed) ∧
      ∀ s ∈ (Region.graft op a b).sides, s.IsNamed := by
  obtain ⟨x, hx, -⟩ := ha.fills
  obtain ⟨y, hy, -⟩ := hb.fills
  rw [(hx.isJoin_combine hop hy).sides_eq, (hx.isJoin_graft hop hy).sides_eq]
  exact ⟨List.forall_mem_append.mpr ⟨hnameda, hnamedb⟩,
    List.forall_mem_append.mpr ⟨hnameda, hnamedb⟩⟩

/-- The operations bring in no sides of their own. -/
theorem Made.isNamed_of_mem_sides (h : Made Side.IsNamed r) : ∀ s ∈ r.sides, s.IsNamed := by
  have hand : RegionOp.and ≠ .complement := by decide
  have hor : RegionOp.or ≠ .complement := by decide
  induction h with
  | ofSide side =>
    rw [(Fills.ofSide _).isTree.sides_eq]
    exact List.forall_mem_singleton.mpr side
  | outsideCell n =>
    rw [(Fills.outsideCell n).isTree.sides_eq]
    exact List.forall_mem_singleton.mpr (.inr ⟨n, rfl⟩)
  | read read =>
    obtain ⟨x, hx, hproper⟩ := fills_of_ofGeometry read
    rw [hx.isTree.sides_eq]
    exact hproper.isNamed_of_mem_sides
  | setCell h cell ih =>
    obtain ⟨x, hx, -⟩ := h.fills
    rwa [(hx.setCell cell).isTree.sides_eq, ← hx.isTree.sides_eq]
  | compact h ih =>
    obtain ⟨x, hx, -⟩ := h.fills
    rwa [hx.compact.isTree.sides_eq, ← hx.isTree.sides_eq]
  | detached h ih =>
    obtain ⟨x, hx, -⟩ := h.fills
    rwa [hx.detached.isTree.sides_eq, ← hx.isTree.sides_eq]
  | complement h ih =>
    obtain ⟨x, hx, -⟩ := h.fills
    rwa [hx.complement.isTree.sides_eq, RegionTree.sides, ← hx.isTree.sides_eq]
  | and ha hb iha ihb => exact (isNamed_of_combine hand ha hb iha ihb).1
  | or ha hb iha ihb => exact (isNamed_of_combine hor ha hb iha ihb).1
  | andWith ha hb iha ihb => exact (isNamed_of_combine hand ha hb iha ihb).2
  | orWith ha hb iha ihb => exact (isNamed_of_combine hor ha hb iha ihb).2

theorem Made.exists_isNamed (h : Made Side.IsNamed r) : ∃ x, r.IsTree x ∧ x.IsNamed := by
  obtain ⟨x, ⟨hx, -⟩, -⟩ := h.fills
  obtain ⟨ids, hspans, -⟩ := id hx
  exact ⟨x, hx, hspans.isNamed (hx.sides_eq ▸ h.isNamed_of_mem_sides)⟩

/-- Two regions are the same if they are written the same, which is to say if they are the same
tree. Which of the two is compared with the other makes no difference but in the words of an error,
and there is no error unless a side of one stands abreast of a combination of the other. -/
theorem Made.same_iff_text_eq (ha : Made Side.IsNamed a) (hb : Made Side.IsNamed b) :
    (a.same b = .ok true ↔ a.text = b.text) ∧
      (∀ x y, a.IsTree x → b.IsTree y → (a.same b = .ok true ↔ x = y)) ∧
      (a.same b).toOption = (b.same a).toOption ∧
      ∀ e, a.same b = .error e → ∃ i j, Lockstep a b i j ∧ Clash a b i j e := by
  obtain ⟨x, hx, hnamedx⟩ := ha.exists_isNamed
  obtain ⟨y, hy, hnamedy⟩ := hb.exists_isNamed
  refine ⟨?_, fun _ _ hx hy ↦ hx.same_eq_true_iff hy, ?_, fun e herror ↦ ?_⟩
  · rw [hx.same_eq_true_iff hy, hx.text_eq, hy.text_eq]
    exact ⟨congrArg _, RegionTree.text_inj hnamedx hnamedy⟩
  · rw [hx.same_eq hy, hy.same_eq hx]
    exact RegionTree.toOption_compare_comm x y
  · rw [hx.same_eq hy] at herror
    obtain ⟨is, hspansa, -⟩ := hx
    obtain ⟨js, hspansb, -⟩ := hy
    exact hspansa.exists_clash hspansb herror

/-- A chain that was grafted stands elsewhere in its arena than one that was put together from its
end. -/
theorem same_of_grafted_chain :
    let grafted := ((surface 1).and (surface (-2))).andWith (surface 3)
    let nested := (surface 1).and ((surface (-2)).and (surface 3))
    (Made Side.IsNamed grafted ∧ Made Side.IsNamed nested) ∧
      grafted.nodes ≠ nested.nodes ∧ grafted.same nested = .ok true ∧
      grafted.text = nested.text := by
  have hside (n : Int) : Made Side.IsNamed (surface n) := .ofSide (.inl ⟨n, rfl⟩)
  have hgrafted := ((hside 1).and (hside (-2))).andWith (hside 3)
  have hnested := (hside 1).and ((hside (-2)).and (hside 3))
  have hsame : (((surface 1).and (surface (-2))).andWith (surface 3)).same
      ((surface 1).and ((surface (-2)).and (surface 3))) = .ok true := by rfl
  exact ⟨⟨hgrafted, hnested⟩, by decide, hsame, (hgrafted.same_iff_text_eq hnested).1.mp hsame⟩

end Region

end TransportDeck
