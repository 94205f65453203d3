import TransportDeck.Proofs.Region.Numerals

/-!
# Phrases with one more operand

A geometry is a phrase of the grammar with layout behind it.  Where a number is put behind the end
of its chain the tokens are a phrase again, and describe the intersection.  A run at that end is
taken out for its numbers.
-/

namespace TransportDeck

variable {level : PhraseLevel} {x : RegionTree} {e : Option Value} {ts us as rs bs : List Token}
  {t : Token} {n : Int}

/-! ## Tokens of phrases -/

/-- Operands end with tokens of these kinds. -/
def TokenKind.endsOperand : TokenKind → Bool
  | .number | .zero | .rightParen | .shorthand _ => true
  | _ => false

theorem TokenKind.endsOperand_of_isNumber {k : TokenKind} (h : k.isNumber = true) :
    k.endsOperand = true := by
  cases k <;> first | rfl | cases h

/-- Something stands there that a word does not run into. -/
def EndsWord (ts : List Token) : Prop := ∀ t ∈ ts.head?, t.isLayout = true ∨ t.kind = .rightParen

/-- Layout or a closing parenthesis stands last. -/
def IsOpen (ts : List Token) : Prop := ∃ t ∈ ts.getLast?, t.isLayout = true ∨ t.kind = .rightParen

/-- An operand ends there. -/
def EndsOperand (ts : List Token) : Prop := ∃ t ∈ ts.getLast?, t.kind.endsOperand = true

theorem IsOpen.append_left (h : IsOpen ts) (us : List Token) : IsOpen (us ++ ts) := by
  obtain ⟨t, ht, hopen⟩ := h
  exact ⟨t, by rw [List.getLast?_append, Option.mem_def.mp ht]; rfl, hopen⟩

theorem EndsOperand.append_left (h : EndsOperand ts) (us : List Token) :
    EndsOperand (us ++ ts) := by
  obtain ⟨t, ht, hends⟩ := h
  exact ⟨t, by rw [List.getLast?_append, Option.mem_def.mp ht]; rfl, hends⟩

theorem endsOperand_singleton (h : t.kind.endsOperand = true) : EndsOperand [t] := ⟨t, rfl, h⟩

/-- Layout stands last unless there is none. -/
theorem isOpen_append_layout {ls : List Token} (hls : AllLayout ls) (h : ls = [] → IsOpen as) :
    IsOpen (as ++ ls) := by
  by_cases hnil : ls = []
  · rw [hnil, List.append_nil]
    exact h hnil
  · have hlast := List.getLast?_eq_some_getLast hnil
    exact IsOpen.append_left ⟨_, hlast, .inl (hls _ (List.mem_of_getLast? hlast))⟩ as

/-- The last character of tokens is that of the last one. -/
theorem mem_getLast?_textOf {d : Char} (ht : t ∈ ts.getLast?) (hd : d ∈ t.text.toList.getLast?) :
    d ∈ (textOf ts).toList.getLast? := by
  obtain ⟨init, rfl⟩ := List.getLast?_eq_some_iff.mp ht
  rw [textOf_append, textOf_cons, textOf_nil, String.append_empty, String.toList_append,
    List.getLast?_append, Option.mem_def.mp hd]
  rfl

/-- An operand ends as numbers and runs do, or with a parenthesis. -/
theorem EndsOperand.exists_last (h : EndsOperand ts)
    (hlex : ∀ t ∈ ts, Lexer.Spells t.kind t.text) :
    ∃ d ∈ (textOf ts).toList.getLast?, d ∈ Lexer.numeralEnds ∨ d = ')' ∧ IsOpen ts := by
  obtain ⟨t, ht, hends⟩ := h
  have hspells := hlex t (List.mem_of_getLast? ht)
  have numeral (hkind : t.kind.isNumber = true ∨ t.kind.isShorthand = true) :
      ∃ d ∈ (textOf ts).toList.getLast?, d ∈ Lexer.numeralEnds ∨ d = ')' ∧ IsOpen ts := by
    obtain ⟨d, hd, hmem⟩ := hspells.numeral hkind
    exact ⟨d, mem_getLast?_textOf ht hd, .inl hmem⟩
  cases hkind : t.kind <;> rw [hkind] at hends <;> try cases hends
  case number | zero => exact numeral (.inl (by rw [hkind]; rfl))
  case shorthand => exact numeral (.inr (by rw [hkind]; rfl))
  case rightParen =>
    have htext : t.text = ")" := hspells.mark ")" (by rw [hkind]; rfl)
    exact ⟨')', mem_getLast?_textOf ht (by rw [htext]; rfl), .inr ⟨rfl, t, ht, .inr hkind⟩⟩

/-- A parenthesis that an operand ends with is its own token. -/
theorem EndsOperand.isOpen (h : EndsOperand ts) (hlex : ∀ t ∈ ts, Lexer.Spells t.kind t.text)
    (hlast : (textOf ts).toList.getLast? = some ')') : IsOpen ts := by
  obtain ⟨d, hd, hmem | ⟨-, hopen⟩⟩ := h.exists_last hlex
  · obtain rfl : ')' = d := Option.some.inj (hlast.symm.trans hd)
    exact absurd hmem (by decide)
  · exact hopen

/-- What is like two lists behind each other is two lists behind each other. -/
theorem exists_of_alike_append (h : List.Forall₂ Token.Alike (as ++ bs) us) :
    ∃ cs ds, us = cs ++ ds ∧ List.Forall₂ Token.Alike as cs ∧ List.Forall₂ Token.Alike bs ds := by
  induction as generalizing us with
  | nil => exact ⟨[], us, rfl, .nil, h⟩
  | cons a as ih =>
    cases h with
    | cons ha hrest =>
      obtain ⟨cs, ds, rfl, hcs, hds⟩ := ih hrest
      exact ⟨_ :: cs, ds, rfl, .cons ha hcs, hds⟩

/-- Layout at other places is layout. -/
theorem allLayout_of_alike {ls : List Token} (h : List.Forall₂ Token.Alike ls us)
    (hls : AllLayout ls) :
    AllLayout us := by
  induction h with
  | nil => exact hls
  | @cons t u ts us htu _ ih =>
    obtain ⟨ht, hts⟩ := List.forall_mem_cons.mp hls
    refine List.forall_mem_cons.mpr ⟨?_, ih hts⟩
    rwa [Token.isLayout, ← htu.kind_eq]

namespace Phrase

/-- A phrase ends with a number, a run or a closing parenthesis. -/
theorem endsOperand (h : Phrase level x e ts) : EndsOperand ts := by
  induction h with
  | surface kind => exact endsOperand_singleton (TokenKind.endsOperand_of_isNumber kind)
  | @cell m t ls n _ _ kind =>
    exact (endsOperand_singleton (TokenKind.endsOperand_of_isNumber kind)).append_left (m :: ls)
  | @complement m ls _ _ _ _ _ _ ih => exact ih.append_left (m :: ls)
  | @group m m' ls ts ls' _ _ _ _ _ _ closing =>
    have hlast : EndsOperand [m'] := endsOperand_singleton (by rw [closing]; rfl)
    simpa using hlast.append_left (m :: (ls ++ (ts ++ ls')))
  | @run t ts ls _ _ _ _ _ _ token =>
    have hlast : EndsOperand [t] := endsOperand_singleton (by rw [token]; rfl)
    simpa using hlast.append_left (ts ++ ls)
  | @intersection ts ls _ _ _ _ _ _ _ _ _ ih => exact (ih.append_left ls).append_left ts
  | @union m ts ls ls' _ _ _ _ _ _ _ _ _ _ _ ih =>
    simpa using ih.append_left (ts ++ (ls ++ m :: ls'))
  | ofGroup _ ih | ofFactor _ ih | ofIntersection _ ih => exact ih

/-- Tokens that are alike are phrases of the same region. -/
theorem alike (h : Phrase level x e ts) (halike : List.Forall₂ Token.Alike ts us) :
    Phrase level x e us := by
  induction h generalizing us with
  | surface kind value =>
    obtain ⟨u, -, ht, ⟨⟩, rfl⟩ := List.forall₂_cons_left_iff.mp halike
    exact .surface (ht.kind_eq ▸ kind) (ht.text_eq ▸ value)
  | cell mark layout kind value =>
    obtain ⟨m', _, hm, hrest, rfl⟩ := List.forall₂_cons_left_iff.mp halike
    obtain ⟨ls', _, rfl, hls, hts⟩ := exists_of_alike_append hrest
    obtain ⟨u, -, ht, ⟨⟩, rfl⟩ := List.forall₂_cons_left_iff.mp hts
    exact .cell (hm.kind_eq ▸ mark) (allLayout_of_alike hls layout)
      (ht.kind_eq ▸ kind) (ht.text_eq ▸ value)
  | complement mark layout _ ih =>
    obtain ⟨m', _, hm, hrest, rfl⟩ := List.forall₂_cons_left_iff.mp halike
    obtain ⟨ls', us', rfl, hls, hus⟩ := exists_of_alike_append hrest
    exact .complement (hm.kind_eq ▸ mark) (allLayout_of_alike hls layout) (ih hus)
  | group opening layout _ layout' closing ih =>
    obtain ⟨m₁, _, hm, hrest, rfl⟩ := List.forall₂_cons_left_iff.mp halike
    obtain ⟨ls₁, _, rfl, hls, hrest⟩ := exists_of_alike_append hrest
    obtain ⟨us₁, _, rfl, hus, hrest⟩ := exists_of_alike_append hrest
    obtain ⟨ls₂, _, rfl, hls', hrest⟩ := exists_of_alike_append hrest
    obtain ⟨m₂, -, hm', ⟨⟩, rfl⟩ := List.forall₂_cons_left_iff.mp hrest
    exact .group (hm.kind_eq ▸ opening) (allLayout_of_alike hls layout) (ih hus)
      (allLayout_of_alike hls' layout') (hm'.kind_eq ▸ closing)
  | run _ layout token goesOn numbers ih =>
    obtain ⟨ts₁, _, rfl, hts, hrest⟩ := exists_of_alike_append halike
    obtain ⟨ls₁, _, rfl, hls, hrun⟩ := exists_of_alike_append hrest
    obtain ⟨u, -, ht, ⟨⟩, rfl⟩ := List.forall₂_cons_left_iff.mp hrun
    exact .run (ih hts) (allLayout_of_alike hls layout) (ht.kind_eq ▸ token)
      (ht.text_eq ▸ goesOn) numbers
  | intersection _ layout _ ihl ihr =>
    obtain ⟨ts₁, _, rfl, hts, hrest⟩ := exists_of_alike_append halike
    obtain ⟨ls₁, us₁, rfl, hls, hus⟩ := exists_of_alike_append hrest
    exact .intersection (ihl hts) (allLayout_of_alike hls layout) (ihr hus)
  | union _ layout mark layout' _ ihl ihr =>
    obtain ⟨ts₁, _, rfl, hts, hrest⟩ := exists_of_alike_append halike
    obtain ⟨ls₁, _, rfl, hls, hmark⟩ := exists_of_alike_append hrest
    obtain ⟨m', _, hm, hright, rfl⟩ := List.forall₂_cons_left_iff.mp hmark
    obtain ⟨ls₂, us₁, rfl, hls', hus⟩ := exists_of_alike_append hright
    exact .union (ihl hts) (allLayout_of_alike hls layout) (hm.kind_eq ▸ mark)
      (allLayout_of_alike hls' layout') (ihr hus)
  | ofGroup _ ih => exact .ofGroup (ih halike)
  | ofFactor _ ih => exact .ofFactor (ih halike)
  | ofIntersection _ ih => exact .ofIntersection (ih halike)

end Phrase

/-! ## Room for numbers -/

/-- Trees agree both ways. -/
theorem RegionTree.Agrees.symm {y : RegionTree} (h : x.Agrees y) : y.Agrees x :=
  ⟨h.sides_eq.symm, fun inside ↦ (h.holds_eq inside).symm⟩

/-- Between the first and the last of the tokens numbers can stand for those in the middle, and
narrow the region of the phrase by the surface.  If they stand behind a gap, they stand for none. -/
structure Room (level : PhraseLevel) (x : RegionTree) (n : Int) (gap : Bool) (ns : List Int)
    (as rs bs : List Token) : Prop where
  ne_nil : ns ≠ []
  behind_gap : gap = true → rs = [] ∧ EndsOperand as
  behind_open : gap = false → IsOpen as ∧ ∃ t, rs = [t] ∧ t.kind.isShorthand = true
  head : EndsWord bs
  inRange : ∀ m ∈ ns, m = n ∨ Number.InRange m
  phrase : ∀ us, Numerals gap ns us → ∃ z e, z.Agrees (.join .and x (.unit (.surface n))) ∧
    Phrase level z e (as ++ (us ++ bs))

namespace Room

variable {gap : Bool} {ns : List Int} {ls : List Token}

/-- A chain can go on. -/
theorem atEnd (h : Phrase .intersection x e us) (n : Int) :
    Room .intersection x n true [n] us [] [] where
  ne_nil := List.cons_ne_nil n []
  behind_gap _ := ⟨rfl, h.endsOperand⟩
  behind_open := nofun
  head := by rintro _ ⟨⟩
  inRange m hm := .inl (List.mem_singleton.mp hm)
  phrase vs hvs := by
    obtain ⟨e', hphrase⟩ := h.append_numerals RegionTree.allLayout_nil hvs
    exact ⟨_, e', .refl _, by simpa using hphrase⟩

/-- A run is taken out for its numbers. -/
theorem spelledOut {ms : List Int} {y : RegionTree} (h : Phrase .intersection x e ts)
    (hls : AllLayout ls) (hopen : IsOpen (ts ++ ls)) (ht : t.kind.isShorthand = true)
    (hy : RegionTree.ofNumbers? ms = some y) (hms : ∀ m ∈ ms, Number.InRange m) (n : Int) :
    Room .intersection (.join .and x y) n false (ms ++ [n]) (ts ++ ls) [t] [] where
  ne_nil := List.append_ne_nil_of_right_ne_nil ms (List.cons_ne_nil n [])
  behind_gap := by rintro ⟨⟩
  behind_open _ := ⟨hopen, t, rfl, ht⟩
  head := by rintro _ ⟨⟩
  inRange m hm := (List.mem_append.mp hm).symm.imp List.mem_singleton.mp (hms m)
  phrase vs hvs := by
    obtain ⟨e', hphrase⟩ := h.append_numerals hls hvs
    rw [List.foldl_append] at hphrase
    exact ⟨_, e', (RegionTree.agrees_foldl hy).join .and (.refl _), by simpa using hphrase⟩

/-- What is put into parentheses leaves its room inside them. -/
theorem group {m m' : Token} {ls' : List Token} (h : Room .union x n gap ns as rs bs)
    (opening : m.kind = .leftParen) (layout : AllLayout ls) (layout' : AllLayout ls')
    (closing : m'.kind = .rightParen) :
    Room .group x n gap ns (m :: (ls ++ as)) rs (bs ++ (ls' ++ [m'])) where
  ne_nil := h.ne_nil
  behind_gap hgap := (h.behind_gap hgap).imp_right (·.append_left (m :: ls))
  behind_open hgap := (h.behind_open hgap).imp_left (·.append_left (m :: ls))
  head := by
    intro t ht
    cases bs with
    | cons b bs => exact h.head t ht
    | nil =>
      cases ls' with
      | cons l ls' =>
        obtain rfl : l = t := Option.some.inj ht
        exact .inl (layout' l List.mem_cons_self)
      | nil =>
        obtain rfl : m' = t := Option.some.inj ht
        exact .inr closing
  inRange := h.inRange
  phrase vs hvs := by
    obtain ⟨z, e, hz, hphrase⟩ := h.phrase vs hvs
    refine ⟨z, e, hz, ?_⟩
    simpa using Phrase.group opening layout hphrase layout' closing

/-- The last factor of an intersection leaves room. -/
theorem intersection {y : RegionTree} (hy : Phrase .intersection y e ts) (layout : AllLayout ls)
    (h : Room .factor x n gap ns as rs bs) :
    Room .intersection (.join .and y x) n gap ns (ts ++ (ls ++ as)) rs bs where
  ne_nil := h.ne_nil
  behind_gap hgap := (h.behind_gap hgap).imp_right fun hends ↦
    (hends.append_left ls).append_left ts
  behind_open hgap := (h.behind_open hgap).imp_left fun hopen ↦
    (hopen.append_left ls).append_left ts
  head := h.head
  inRange := h.inRange
  phrase vs hvs := by
    obtain ⟨z, e', hz, hphrase⟩ := h.phrase vs hvs
    refine ⟨_, e', ((RegionTree.Agrees.refl y).join .and hz).trans
      (.symm (.assoc .and y x _)), ?_⟩
    simpa using Phrase.intersection hy layout hphrase

theorem mono {level' : PhraseLevel} (h : Room level x n gap ns as rs bs)
    (hlevel : ∀ z e ts, Phrase level z e ts → Phrase level' z e ts) :
    Room level' x n gap ns as rs bs where
  ne_nil := h.ne_nil
  behind_gap := h.behind_gap
  behind_open := h.behind_open
  head := h.head
  inRange := h.inRange
  phrase vs hvs := by
    obtain ⟨z, e, hz, hphrase⟩ := h.phrase vs hvs
    exact ⟨z, e, hz, hlevel _ _ _ hphrase⟩

end Room

/-! ## Trees and their tokens -/

/-- At the level of groups stand numbers, too. -/
def PhraseLevel.raised : PhraseLevel → PhraseLevel
  | group => factor
  | level => level

namespace GeometryTree

variable {tree : GeometryTree} {room : Nat} {l : Option Layout}

/-- A run that is spelled out stands behind layout or parentheses. -/
def RunsApart : GeometryTree → Prop
  | binary _ l mark r => l.RunsApart ∧ r.RunsApart ∧ ∀ s, r = .run s → 1 < s.numbers.length →
    mark.text ≠ "" ∨ (l.render .standard).text.toList.getLast? = some ')'
  | complement _ t | group _ t _ => t.RunsApart
  | _ => True

/-- The region of two operands is joined from their regions. -/
theorem exists_of_region?_binary {op : GeometryOp} {left right : GeometryTree} {mark : Layout}
    (h : (binary op left mark right).region? = some x) : ∃ y z, left.region? = some y ∧
      right.region? = some z ∧ x = .join (if op = .union then .or else .and) y z := by
  unfold region? at h
  split at h
  · next y z hy hz => exact ⟨y, z, hy, hz, (Option.some.inj h).symm⟩
  · cases h

/-- The tokens are those of the tree, and describe the region. -/
structure Told (tree : GeometryTree) (level : PhraseLevel) (x : RegionTree) (us : List Token) :
    Prop where
  text : (tree.render .standard).text = textOf us
  phrase : Phrase level.raised x tree.edge? us
  chain : tree.isUnion = false → Phrase .intersection x tree.edge? us
  enclosed : level = .group → tree.leaf? = none → Phrase .group x tree.edge? us
  place : tree.isChain = true → ∀ n, ∃ gap ns as rs bs, us = as ++ (rs ++ bs) ∧
    Room level x n gap ns as rs bs ∧
      tree.narrowText n .standard = textOf as ++ (numeralText gap ns ++ textOf bs)

namespace Told

variable {y : RegionTree} {left right operand inner : GeometryTree} {f : Field} {m m' : Token}
  {ls ls' : List Token} {mark opening closing : Layout}

/-- A leaf is told by its number. -/
theorem leaf (kind : t.kind.isNumber = true) (value : Field.parse? t.text .int none = some f)
    (hregion : (GeometryTree.leaf f.asSignedIdentifier).region? = some x) :
    Told (.leaf f.asSignedIdentifier) .group x [t] := by
  obtain ⟨n, hn, hholds⟩ := Field.holds_of_parse? value
  have hparsed := Field.parsed_of_parse? value
  have hedge : (GeometryTree.leaf f.asSignedIdentifier).edge? = some (.int n) := hholds.signed_eq
  rw [region?, hholds.toInt?_eq] at hregion
  obtain rfl : .unit (.surface n) = x := Option.some.inj hregion
  have hphrase : Phrase .factor (.unit (.surface n)) _ [t] := .surface kind hn
  rw [← hedge] at hphrase
  refine ⟨?_, hphrase, fun _ ↦ .ofFactor hphrase, (fun _ h ↦ by cases h), (by rintro ⟨⟩)⟩
  rw [render, hparsed.isRead_asSignedIdentifier.render, Field.source_asSignedIdentifier,
    hparsed.source_eq]
  simp [layoutText]

/-- Parentheses are told by what is inside them, and by their own tokens. -/
theorem group (h : Told inner .union x us) (hm : m.kind = .leftParen) (hls : AllLayout ls)
    (hls' : AllLayout ls') (hm' : m'.kind = .rightParen)
    (hopening : opening.text = textOf (m :: ls)) (hclosing : closing.text = textOf (ls' ++ [m'])) :
    Told (.group opening inner closing) .group x (m :: (ls ++ (us ++ (ls' ++ [m'])))) where
  text := by
    rw [render, Rendered.text_append, Rendered.text_append, h.text]
    simp [hopening, hclosing, String.append_assoc]
  phrase := .ofGroup (.group hm hls h.phrase hls' hm')
  chain _ := .ofFactor (.ofGroup (.group hm hls h.phrase hls' hm'))
  enclosed _ _ := .group hm hls h.phrase hls' hm'
  place hchain n := by
    have hinner : inner.isChain = true := hchain
    obtain ⟨gap, ns, as, rs, bs, rfl, hroom, htext⟩ := h.place hinner n
    refine ⟨gap, ns, _, rs, _, by simp, hroom.group hm hls hls' hm', ?_⟩
    rw [narrowText, if_pos hinner, htext]
    simp [hopening, hclosing, String.append_assoc]

/-- An intersection is told by its factors and the layout between them. -/
theorem intersection (hl : Told left .intersection x as) (hls : AllLayout ls)
    (hmark : mark.text = textOf ls) (hr : Told right .factor y bs) :
    Told (.binary .intersection left mark right) .intersection (.join .and x y)
      (as ++ (ls ++ bs)) where
  text := by
    rw [render, Rendered.text_append, Rendered.text_append, hl.text, hr.text]
    simp [hmark, String.append_assoc]
  phrase := .intersection hl.phrase hls hr.phrase
  chain _ := .intersection hl.phrase hls hr.phrase
  enclosed h := by cases h
  place _ n := by
    rw [narrowText, if_pos rfl, hl.text, hmark]
    by_cases hchain : right.isChain = true
    · obtain ⟨gap, ns, cs, rs, ds, rfl, hroom, htext⟩ := hr.place hchain n
      refine ⟨gap, ns, _, rs, ds, by simp, hroom.intersection hl.phrase hls, ?_⟩
      rw [htext]
      simp [String.append_assoc]
    · rw [Bool.not_eq_true] at hchain
      refine ⟨true, [n], _, [], [], (by simp), .atEnd (.intersection hl.phrase hls hr.phrase) n, ?_⟩
      rw [narrowText_of_isChain_eq_false n .standard hchain, hr.text]
      simp [String.append_assoc]

/-- A run behind an intersection is told by its token. -/
theorem run {s : Shorthand} (hl : Told left .intersection x as) (hls : AllLayout ls)
    (hmark : mark.text = textOf ls) (token : t.kind = .shorthand s.kind)
    (goesOn : s.GoesOn left.edge? t.text) (hy : RegionTree.ofNumbers? s.numbers = some y)
    (htext : (s.render .standard).text = t.text) (hnumbers : ∀ m ∈ s.numbers, Number.InRange m)
    (hopen : 1 < s.numbers.length → IsOpen (as ++ ls)) :
    Told (.binary .intersection left mark (.run s)) .intersection (.join .and x y)
      (as ++ (ls ++ [t])) := by
  have hphrase : Phrase .intersection (.join .and x y) s.edge? (as ++ (ls ++ [t])) :=
    .run hl.phrase hls token goesOn hy
  refine ⟨?_, hphrase, fun _ ↦ hphrase, nofun, fun _ n ↦ ?_⟩
  · rw [render, Rendered.text_append, Rendered.text_append, hl.text, render, htext]
    simp [hmark, String.append_assoc]
  · rw [narrowText, if_pos rfl, hl.text, hmark, narrowText]
    split_ifs with hlength
    · refine ⟨false, s.numbers ++ [n], _, [t], [], by simp,
        .spelledOut hl.phrase hls (hopen hlength) (by rw [token]; rfl) hy hnumbers n, ?_⟩
      simp [numeralText]
    · refine ⟨true, [n], _, [], [], by simp, .atEnd hphrase n, ?_⟩
      rw [htext]
      simp [String.append_assoc]

/-- A union is told by its chains and the colon between them. -/
theorem union (hl : Told left .union x as) (hls : AllLayout ls) (hm : m.kind = .colon)
    (hls' : AllLayout ls') (hmark : mark.text = textOf (ls ++ m :: ls'))
    (hr : Told right .intersection y bs) :
    Told (.binary .union left mark right) .union (.join .or x y)
      (as ++ (ls ++ m :: (ls' ++ bs))) where
  text := by
    rw [render, Rendered.text_append, Rendered.text_append, hl.text, hr.text]
    simp [hmark, String.append_assoc]
  phrase := .union hl.phrase hls hm hls' hr.phrase
  chain h := by cases h
  enclosed h := by cases h
  place h := by cases h

/-- The outside of a cell is told by its mark and the number. -/
theorem cell (hm : m.kind = .complement) (hls : AllLayout ls) (hmark : mark.text = textOf (m :: ls))
    (kind : t.kind.isNumber = true) (value : Field.parse? t.text .int none = some f)
    (hregion : (GeometryTree.complement mark (.leaf f.asSignedIdentifier)).region? = some x) :
    Told (.complement mark (.leaf f.asSignedIdentifier)) .factor x (m :: (ls ++ [t])) := by
  obtain ⟨n, hn, hholds⟩ := Field.holds_of_parse? value
  have htext : ((GeometryTree.leaf f.asSignedIdentifier).render .standard).text = textOf [t] :=
    (leaf kind value (by rw [region?, hholds.toInt?_eq]; rfl)).text
  have hedge : (GeometryTree.complement mark (.leaf f.asSignedIdentifier)).edge? = some (.int n) :=
    hholds.signed_eq
  simp only [region?, leaf?, hholds.toInt?_eq, Option.map_some, Option.some.injEq] at hregion
  subst hregion
  have hphrase : Phrase .factor (.complement (.unit (.cell n))) _ (m :: (ls ++ [t])) :=
    .cell hm hls kind hn
  rw [← hedge] at hphrase
  refine ⟨?_, hphrase, fun _ ↦ .ofFactor hphrase, (by rintro ⟨⟩), (by rintro ⟨⟩)⟩
  rw [render, Rendered.text_append, htext]
  simp [hmark, String.append_assoc]

/-- A complement is told by its mark and the group behind it. -/
theorem complement (h : Told operand .group x us) (hleaf : operand.leaf? = none)
    (hm : m.kind = .complement) (hls : AllLayout ls) (hmark : mark.text = textOf (m :: ls)) :
    Told (.complement mark operand) .factor (.complement x) (m :: (ls ++ us)) where
  text := by
    rw [render, Rendered.text_append, h.text]
    simp [hmark, String.append_assoc]
  phrase := .complement hm hls (h.enclosed rfl hleaf)
  chain _ := .ofFactor (.complement hm hls (h.enclosed rfl hleaf))
  enclosed h := by cases h
  place h := by cases h

/-- What is told as a phrase is told as a wider one. -/
theorem widen {level' : PhraseLevel} (h : Told tree level x us) (hlevel : level' ≠ .group)
    (hphrase : ∀ z e ts, Phrase level z e ts → Phrase level' z e ts)
    (hraised : ∀ z e ts, Phrase level.raised z e ts → Phrase level'.raised z e ts) :
    Told tree level' x us where
  text := h.text
  phrase := hraised _ _ _ h.phrase
  chain := h.chain
  enclosed h := absurd h hlevel
  place hchain n := by
    obtain ⟨gap, ns, as, rs, bs, rfl, hroom, htext⟩ := h.place hchain n
    exact ⟨gap, ns, as, rs, bs, rfl, hroom.mono hphrase, htext⟩

/-- The room behind the last factor of what is no union. -/
theorem exists_room (h : Told tree .union x us) (hunion : tree.isUnion = false) (n : Int) :
    ∃ gap ns as rs bs, us = as ++ (rs ++ bs) ∧ Room .union x n gap ns as rs bs ∧
      tree.narrowText n .standard = textOf as ++ (numeralText gap ns ++ textOf bs) := by
  by_cases hchain : tree.isChain = true
  · exact h.place hchain n
  · rw [Bool.not_eq_true] at hchain
    have hroom : Room .union x n true [n] us [] [] :=
      (Room.atEnd (h.chain hunion) n).mono fun _ _ _ ↦ .ofIntersection
    refine ⟨true, [n], us, [], [], by simp, hroom, ?_⟩
    rw [narrowText_of_isChain_eq_false n .standard hchain, h.text]
    simp

end Told

/-- What was read is told by its tokens, up to the layout at their end, if its runs are written as
they were read. -/
theorem Parsed.exists_told (h : tree.Parsed level room ts l)
    (hlex : ∀ t ∈ ts, Lexer.Spells t.kind t.text) (hfaithful : tree.Faithful)
    (hapart : tree.RunsApart) (hregion : tree.region? = some x) :
    ∃ us ls, ts = us ++ ls ∧ AllLayout ls ∧ l = layoutOf ls ∧ tree.Told level x us := by
  have spelled {m : Token} {s : String} (hm : Lexer.Spells m.kind m.text)
      (hs : Lexer.spelling? m.kind = some s) :
      m.text = s := hm.mark s hs
  induction h generalizing x with
  | @leaf room t ls f kind value behind =>
    exact ⟨[t], ls, rfl, behind, rfl, .leaf kind value hregion⟩
  | @group room m m' ls ts ls' tree l mark layout inner mark' behind ih =>
    simp only [List.forall_mem_cons, List.forall_mem_append] at hlex
    obtain ⟨us, ks, rfl, hks, rfl, htold⟩ := ih hlex.2.2.1 hfaithful hapart hregion
    have hopening := spelled hlex.1 (by rw [mark]; rfl)
    have hclosing := spelled hlex.2.2.2.1 (by rw [mark']; rfl)
    refine ⟨m :: (ls ++ (us ++ (ks ++ [m']))), ls', by
      simp, behind, rfl, htold.group mark layout hks mark' ?_ ?_⟩
    · simp [text_markedLayout, hopening]
    · simp [Layout.text_getD, layoutText_layoutOf, hclosing]
  | @complement room m ls ts tree l mark layout operand ih =>
    simp only [List.forall_mem_cons, List.forall_mem_append] at hlex
    have hmark := spelled hlex.1 (by rw [mark]; rfl)
    have htext : (markedLayout (.ofLiteral "#") ls).text = textOf (m :: ls) := by
      simp [text_markedLayout, hmark]
    cases operand with
    | @leaf _ t ks f kind value behind =>
      exact ⟨m :: (ls ++ [t]), ks, by simp, behind, rfl, .cell mark layout htext kind value hregion⟩
    | group =>
      obtain ⟨y, hy, rfl⟩ := Option.map_eq_some_iff.mp hregion
      obtain ⟨us, ks, hts, hks, hl, htold⟩ := ih hlex.2.2 hfaithful hapart hy
      exact ⟨m :: (ls ++ us), ks, by simp [hts], hks, hl, htold.complement rfl mark layout htext⟩
  | @run room t ts ks left l s hleft token goesOn behind ih =>
    simp only [List.forall_mem_cons, List.forall_mem_append] at hlex
    obtain ⟨y, z, hy, hz, rfl⟩ := exists_of_region?_binary hregion
    obtain ⟨as, ls, rfl, hls, rfl, hl⟩ := ih hlex.1 hfaithful.1 hapart.1 hy
    have hmark : ((layoutOf ls).getD .empty).text = textOf ls := by
      rw [Layout.text_getD, layoutText_layoutOf]
    obtain ⟨hread, hsource⟩ := goesOn.readAs
    have htext : (s.render .standard).text = t.text :=
      (hread.echoes.eq_iff.mpr hfaithful.2).trans hsource
    have hnumbers := goesOn.inRange_numbers hleft.inRange_edge
    refine ⟨as ++ (ls ++ [t]), ks, by simp, behind, rfl,
      hl.run hls hmark token goesOn hz htext hnumbers fun hlength ↦ ?_⟩
    refine isOpen_append_layout hls ?_
    rintro rfl
    have hclosed := (hapart.2.2 s rfl hlength).resolve_left (not_not_intro hmark)
    rw [hl.text] at hclosed
    exact hl.phrase.endsOperand.isOpen
      (fun t ht ↦ hlex.1 t (List.mem_append_left _ ht)) hclosed
  | @intersection room ts us left right l l' _ _ ihl ihr =>
    obtain ⟨hlexl, hlexr⟩ := List.forall_mem_append.mp hlex
    obtain ⟨y, z, hy, hz, rfl⟩ := exists_of_region?_binary hregion
    obtain ⟨as, ls, rfl, hls, rfl, hl⟩ := ihl hlexl hfaithful.1 hapart.1 hy
    obtain ⟨bs, ks, rfl, hks, rfl, hr⟩ := ihr hlexr hfaithful.2 hapart.2.1 hz
    refine ⟨as ++ (ls ++ bs), ks, by simp, hks, rfl, hl.intersection hls ?_ hr⟩
    rw [Layout.text_getD, layoutText_layoutOf]
  | @union room m ts ls us left right l l' _ mark layout _ ihl ihr =>
    simp only [List.forall_mem_cons, List.forall_mem_append] at hlex
    obtain ⟨y, z, hy, hz, rfl⟩ := exists_of_region?_binary hregion
    obtain ⟨as, ls₁, rfl, hls, rfl, hl⟩ := ihl (by simpa using hlex.1) hfaithful.1 hapart.1 hy
    obtain ⟨bs, ks, rfl, hks, rfl, hr⟩ := ihr (by simpa using hlex.2.2.2) hfaithful.2 hapart.2.1 hz
    have hcolon := spelled hlex.2.1 (by rw [mark]; rfl)
    refine ⟨as ++ (ls₁ ++ m :: (ls ++ bs)), ks, by
      simp, hks, rfl, hl.union hls mark layout ?_ hr⟩
    simp [text_markedLayout, Layout.text_getD, layoutText_layoutOf, hcolon, String.append_assoc]
  | ofGroup _ ih =>
    obtain ⟨us, ls, rfl, hls, rfl, htold⟩ := ih hlex hfaithful hapart hregion
    exact ⟨us, ls, rfl, hls, rfl, htold.widen nofun (fun _ _ _ ↦ .ofGroup) fun _ _ _ ↦ id⟩
  | ofFactor _ ih =>
    obtain ⟨us, ls, rfl, hls, rfl, htold⟩ := ih hlex hfaithful hapart hregion
    exact ⟨us, ls, rfl, hls, rfl, htold.widen nofun (fun _ _ _ ↦ .ofFactor) fun _ _ _ ↦ .ofFactor⟩
  | ofIntersection _ ih =>
    obtain ⟨us, ls, rfl, hls, rfl, htold⟩ := ih hlex hfaithful hapart hregion
    exact ⟨us, ls, rfl, hls, rfl, htold.widen nofun (fun _ _ _ ↦ .ofIntersection) fun _ _ _ ↦
      .ofIntersection⟩

end GeometryTree

end TransportDeck
