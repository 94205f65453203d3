import TransportDeck.Proofs.Grammar.Endings

/-!
# How materials are read

A material is read as what stands in front of its pairs, the pairs that its tokens spell, and its
parameters.  What stands in front is read the same whatever pairs follow, as long as their first
token is the same.
-/

namespace TransportDeck

namespace Production

open WrittenItem

variable {c c' : Cursor} {t : Token} {ts us ls ws : List Token} {n : Nuclide} {ns : List Nuclide}

/-! ## One token ahead -/

namespace Peeks

theorem word? (test : Token → Bool) : Peeks (word? test) := current?.bind fun o ↦ by
  split
  · exact advance.bind fun _ ↦ pure
  · exact pure

theorem nameNumber? : Peeks nameNumber? := current?.bind fun o ↦ by
  split
  · exact pure
  · split
    · exact advance.bind fun _ ↦ pure
    · exact pure

theorem particles? : Peeks particles? := currentKind?.bind fun k ↦ by
  split_ifs
  · refine currentSpan.bind fun span ↦ advance.bind fun _ ↦ (takeWhile _).bind fun taken ↦ ?_
    dsimp only
    split
    · exact pure
    · exact throw
  · exact pure

theorem classifier (g : Grammar) : Peeks (classifier g) := by
  unfold Production.classifier
  split_ifs
  · exact unexpected
  refine (word? _).bind fun modifier ↦ (word? _).bind fun name ↦ ?_
  cases name with
  | none => exact unexpected
  | some name => exact nameNumber?.bind fun _ ↦ particles?.bind fun _ ↦ layout.bind fun _ ↦ pure

end Peeks

/-! ## Values -/

/-- Layout is made of the tokens that it is read from. -/
theorem Reads.layout_tokens : Reads Production.layout c fun l ts ↦
    l = Layout.ofTokens? ts ∧ ∀ t ∈ ts, t.isLayout = true :=
  (Reads.takeWhile Token.isLayout).bind fun taken ts _ _ h ↦ .pure (by
    rw [List.append_nil, ← h.1]
    exact ⟨rfl, h.1 ▸ h.2⟩)

/-- The tokens of a value: one that is accepted and layout behind it. -/
theorem Reads.value_tokens (kind : ValueKind) (expected : String) :
    Reads (Production.value kind expected) c fun f ts ↦
    ∃ t ls g, c.rest.head? = some t ∧ ts = t :: ls ∧ accepts kind t = true ∧
    Field.parse? t.text kind none = some g ∧
      (∀ l ∈ ls, l.isLayout = true) ∧ f = g.setLayout (Layout.ofTokens? ls) := by
  refine .current ?_
  split
  · exact .unexpected
  next t ht =>
  obtain ⟨hhead, haccepts⟩ := Option.filter_eq_some_iff.mp ht
  obtain ⟨us, hrest⟩ := List.head?_eq_some_iff.mp hhead
  split
  · exact .unexpected
  next g hg =>
  refine (Reads.advance hrest).bind ?_
  rintro _ _ c' - rfl
  refine Reads.layout_tokens.bind ?_
  rintro _ ts c'' - ⟨rfl, hts⟩
  exact .pure ⟨t, ts, g, hhead, by simp, haccepts, hg, hts, rfl⟩

/-- From a word in front of these tokens no equals sign is reached. -/
def BarsEquals (ws : List Token) : Prop :=
  ∀ w ∈ ws.head?, isBeforeEquals w = false ∧ w.kind ≠ .equals

/-- A keyword is no parameter if the next equals sign stands behind other words. -/
theorem parameterInFront_keyword (hkind : t.kind = .keyword) (hus : ∀ u ∈ us, u.kind ≠ .equals)
    (hws : BarsEquals ws) : parameterInFront .data (t :: (us ++ ws)) = false := by
  have hnone : ((us ++ ws).dropWhile isBeforeEquals).head?.any (·.kind == .equals) = false := by
    rw [← Bool.not_eq_true, Option.any_eq_true]
    rintro ⟨u, hu, hequals⟩
    rw [List.dropWhile_append] at hu
    split_ifs at hu with hempty
    · cases ws with
      | nil => cases hu
      | cons w ws =>
        obtain ⟨hbefore, hother⟩ := hws w rfl
        rw [List.dropWhile_cons_of_neg (by simp [hbefore])] at hu
        obtain rfl := Option.some.inj hu
        exact hother (eq_of_beq hequals)
    · rw [List.head?_append_of_ne_nil _ (by simpa using hempty)] at hu
      exact hus u ((List.dropWhile_suffix _).subset (List.mem_of_head? hu)) (eq_of_beq hequals)
  have hmark : isMark t = false := by simp [isMark, hkind]
  rw [parameterInFront, List.head?_cons, Option.any_some, hmark]
  simp only [Bool.false_eq_true, if_false, hnone]
  simp [Grammar.data]

/-! ## Pairs -/

/-- The tokens of a nuclide and its amount, each with the layout behind it. -/
structure SpellsPair (ts : List Token) (n : Nuclide) : Prop where
  exists_tokens : ∃ t ls u ms amount, ts = t :: (ls ++ u :: ms) ∧ startsNuclide t = true ∧
    (∀ l ∈ ls, l.isLayout = true) ∧ u.kind.isNumber = true ∧ Field.parse? u.text .real none =
    some amount ∧
    (∀ m ∈ ms, m.isLayout = true) ∧
    n = .of ((wordField t.text).setLayout (Layout.ofTokens? ls))
      (amount.setLayout (Layout.ofTokens? ms))

/-- The tokens of pairs, one behind the other. -/
def SpellPairs (ts : List Token) (ns : List Nuclide) : Prop :=
  ∃ tss, List.Forall₂ SpellsPair tss ns ∧ ts = tss.flatten

/-- What starts a nuclide is no layout. -/
theorem isLayout_of_startsNuclide (h : startsNuclide t = true) : t.isLayout = false := by
  rw [startsNuclide, Bool.or_eq_true, beq_iff_eq, beq_iff_eq] at h
  rcases h with h | h <;> exact Token.isLayout_of_kind h rfl

namespace SpellsPair

variable (h : SpellsPair ts n)
include h

/-- A pair starts with a nuclide. -/
theorem startsNuclide_head : ∀ t ∈ ts.head?, startsNuclide t = true := by
  obtain ⟨t, ls, u, ms, amount, rfl, ht, -⟩ := h.exists_tokens
  rintro _ ⟨⟩
  exact ht

theorem ne_nil : ts ≠ [] := by
  obtain ⟨t, ls, u, ms, amount, rfl, -⟩ := h.exists_tokens
  exact List.cons_ne_nil _ _

/-- There is no equals sign in a pair. -/
theorem kind_ne_equals : ∀ t ∈ ts, t.kind ≠ .equals := by
  have hlayout {l : Token} (hl : l.isLayout = true) : l.kind ≠ .equals := fun hkind ↦ by
    rw [Token.isLayout_of_kind hkind rfl] at hl
    cases hl
  obtain ⟨t, ls, u, ms, amount, rfl, ht, hls, hu, -, hms, -⟩ := h.exists_tokens
  intro v hv hkind
  simp only [List.mem_cons, List.mem_append] at hv
  rcases hv with rfl | hv | rfl | hv
  · rw [startsNuclide, hkind] at ht
    cases ht
  · exact hlayout (hls v hv) hkind
  · rw [hkind] at hu
    cases hu
  · exact hlayout (hms v hv) hkind

/-- The pair is read, up to what is no layout. -/
theorem gives (hus : ∀ u ∈ us.head?, u.isLayout = false) (ns : Nuclides) :
    Gives (nuclide? ns) (ts ++ us) (some (ns.push n)) us := by
  obtain ⟨t, ls, u, ms, amount, rfl, ht, hls, hu, hamount, hms, rfl⟩ := h.exists_tokens
  rw [List.cons_append, List.append_assoc, List.cons_append]
  refine Gives.current.bind ?_
  rw [List.head?_cons, Option.any_some, if_pos ht]
  have hid : accepts .text t = true := by simp [accepts, isLayout_of_startsNuclide ht]
  have hreal : accepts .real u = true := hu
  exact (Gives.value_append hid rfl hls (by rintro _ ⟨⟩; exact Token.isLayout_of_isNumber hu)).bind
    ((Gives.value_append hreal hamount hms hus).bind .pure)

end SpellsPair

/-- A pair is put behind the others, and spelled by the tokens that it is read from. -/
theorem Reads.nuclide?_tokens (ns : Nuclides) :
    Reads (Production.nuclide? ns) c fun o ts ↦ match o with
    | some ns' => ∃ n, ns' = ns.push n ∧ SpellsPair ts n
    | none => ts = [] := by
  refine .current ?_
  split_ifs with hstarts
  · refine (Reads.value_tokens _ _).bind ?_
    rintro _ _ c' - ⟨t, ls, g, hhead, rfl, -, hg, hls, rfl⟩
    obtain rfl : wordField t.text = g := Option.some.inj hg
    rw [hhead] at hstarts
    refine (Reads.value_tokens _ _).bind ?_
    rintro _ _ c'' - ⟨u, ms, amount, -, rfl, hu, hamount, hms, rfl⟩
    exact .pure ⟨_, rfl, ⟨t, ls, u, ms, amount, by simp, hstarts, hls, hu, hamount, hms, rfl⟩⟩
  · exact .pure rfl

namespace SpellPairs

theorem nil : SpellPairs [] [] := ⟨[], .nil, rfl⟩

theorem of_pair (h : SpellsPair ts n) : SpellPairs ts [n] := ⟨[ts], .cons h .nil, by simp⟩

/-- Pairs behind each other are spelled by tokens behind each other. -/
theorem append {ns' : List Nuclide} (h : SpellPairs ts ns) (h' : SpellPairs us ns') :
    SpellPairs (ts ++ us) (ns ++ ns') := by
  obtain ⟨tss, htss, rfl⟩ := h
  obtain ⟨uss, huss, rfl⟩ := h'
  exact ⟨tss ++ uss, List.rel_append htss huss, by rw [List.flatten_append]⟩

/-- The tokens of the last pair stand at the end. -/
theorem exists_last (h : SpellPairs ts (ns ++ [n])) :
    ∃ us vs, ts = us ++ vs ∧ SpellPairs us ns ∧ SpellsPair vs n := by
  obtain ⟨tss, htss, rfl⟩ := h
  obtain ⟨vs, vss, hvs, hvss, hdrop⟩ :=
    List.forall₂_cons_right_iff.mp (List.forall₂_drop_append tss ns [n] htss)
  cases hvss
  refine ⟨(tss.take ns.length).flatten, vs, ?_,
    ⟨_, List.forall₂_take_append tss ns [n] htss, rfl⟩, hvs⟩
  conv_lhs => rw [← List.take_append_drop ns.length tss, hdrop]
  simp

section

variable (h : SpellPairs ts ns)
include h

/-- There is no equals sign among pairs. -/
theorem kind_ne_equals : ∀ t ∈ ts, t.kind ≠ .equals := by
  obtain ⟨tss, htss, rfl⟩ := h
  induction htss with
  | nil => exact nofun
  | cons hpair _ ih => exact List.forall_mem_append.mpr ⟨hpair.kind_ne_equals, ih⟩

/-- Pairs start with a nuclide. -/
theorem startsNuclide_head : ∀ t ∈ ts.head?, startsNuclide t = true := by
  obtain ⟨tss, htss, rfl⟩ := h
  cases htss with
  | nil => rintro _ ⟨⟩
  | cons hpair _ =>
    intro t ht
    rw [List.flatten_cons, List.head?_append_of_ne_nil _ hpair.ne_nil] at ht
    exact hpair.startsNuclide_head t ht

theorem ne_nil (hne : ns ≠ []) : ts ≠ [] := by
  obtain ⟨tss, htss, rfl⟩ := h
  cases htss with
  | nil => exact absurd rfl hne
  | cons hpair _ => simp [hpair.ne_nil]

theorem isLayout_head : ∀ t ∈ ts.head?, t.isLayout = false := fun t ht ↦
  isLayout_of_startsNuclide (h.startsNuclide_head t ht)

end

/-- Each pair takes a round, up to what is no pair. -/
theorem gives_rounds (h : SpellPairs ts ns) {m : Nat} (hm : ns.length < m)
    (hws : ∀ w ∈ ws.head?, w.isLayout = false ∧ startsNuclide w = false) (before : Nuclides) :
    Gives (rounds nuclide? m before) (ts ++ ws) ⟨before.pairs ++ ns⟩ ws := by
  obtain ⟨tss, htss, rfl⟩ := h
  induction htss generalizing m before with
  | nil =>
    have hlast : Gives (nuclide? before) ws none ws := by
      refine Gives.current.bind ?_
      have hnone : ws.head?.any startsNuclide = false := by
        rw [← Bool.not_eq_true, Option.any_eq_true]
        rintro ⟨w, hw, hstarts⟩
        rw [(hws w hw).2] at hstarts
        cases hstarts
      rw [hnone]
      exact .pure
    rw [List.append_nil]
    exact .rounds_nothing hlast m
  | @cons us n uss ns hpair hpairs ih =>
    obtain ⟨m, rfl⟩ := Nat.exists_eq_succ_of_ne_zero (Nat.ne_zero_of_lt hm)
    have hsolid : ∀ u ∈ (uss.flatten ++ ws).head?, u.isLayout = false := by
      intro u hu
      rw [List.head?_append, Option.mem_def, Option.or_eq_some_iff] at hu
      rcases hu with hu | ⟨-, hu⟩
      · exact isLayout_head ⟨uss, hpairs, rfl⟩ u hu
      · exact (hws u hu).1
    have hfirst := hpair.gives hsolid before
    have hrest := ih (Nat.lt_of_succ_lt_succ hm) (before.push n)
    rw [Nuclides.push, List.append_assoc, List.singleton_append] at hrest
    rw [List.flatten_cons, List.append_assoc]
    exact hfirst.bind hrest

/-- Each pair has at least one token. -/
theorem length_le (h : SpellPairs ts ns) : ns.length ≤ ts.length := by
  obtain ⟨tss, htss, rfl⟩ := h
  induction htss with
  | nil => exact le_rfl
  | cons hpair _ ih =>
    have := List.length_pos_of_ne_nil hpair.ne_nil
    rw [List.flatten_cons, List.length_append, List.length_cons]
    omega

/-- Pairs are read from the tokens that spell them, up to what starts no nuclide. -/
theorem gives (h : SpellPairs ts ns) (hne : ns ≠ [])
    (hws : ∀ w ∈ ws.head?, w.isLayout = false ∧ startsNuclide w = false) :
    Gives nuclides (ts ++ ws) ⟨ns⟩ ws := by
  have hlength : ns.length < (ts ++ ws).length + 1 := by
    have := h.length_le
    rw [List.length_append]
    omega
  have hloop : Gives (loop nuclide? .empty) (ts ++ ws) ⟨ns⟩ ws :=
    .loop (h.gives_rounds hlength hws .empty)
  have hisEmpty : (⟨ns⟩ : Nuclides).isEmpty = false := by simpa [Nuclides.isEmpty] using hne
  refine hloop.bind ?_
  rw [hisEmpty]
  exact .pure

end SpellPairs

/-- A material has at least one pair, and is spelled by the tokens that it is read from. -/
theorem Reads.nuclides_tokens : Reads Production.nuclides c fun (ns : Nuclides) ts ↦
    SpellPairs ts ns.pairs ∧ ns.pairs ≠ [] := by
  refine (Reads.loop (I := fun (ns : Nuclides) ts ↦
    SpellPairs ts ns.pairs) ?_ SpellPairs.nil).bind ?_
  · rintro ns ts c' - h
    refine (Reads.nuclide?_tokens ns).mono fun o us ho ↦ ?_
    cases o with
    | some ns' =>
      obtain ⟨n, rfl, hn⟩ := ho
      exact h.append (.of_pair hn)
    | none => exact ho
  · intro ns ts c' _ h
    split_ifs with hempty
    · exact .unexpected
    · exact .pure ⟨by rwa [List.append_nil], by simpa [Nuclides.isEmpty] using hempty⟩

/-! ## Records -/

/-- There is no keyword, or one that is a word. -/
theorem keyword?_cases {o : Option Field} (h : (keyword? .data).run c = (.ok o, c')) :
    (o = none ∧ c' = c) ∨ ∃ t f, c.rest.head? = some t ∧ t.kind = .keyword ∧ o = some f ∧
      (value .text "keyword").run c = (.ok f, c') := by
  change ((if c.stream.current?.map (·.kind) == some .keyword && !parameterAhead .data c.stream then
    (do return some (← value .text "keyword")) else pure none :
      Production (Option Field)).run c) = _ at h
  rw [c.current?_eq_head?] at h
  split_ifs at h with hkeyword
  · obtain ⟨f, c₁, hvalue, ⟨⟩⟩ := run_bind_ok h
    rw [Bool.and_eq_true, beq_iff_eq, Option.map_eq_some_iff] at hkeyword
    obtain ⟨⟨t, hhead, hkind⟩, -⟩ := hkeyword
    exact .inr ⟨t, f, hhead, hkind, rfl, hvalue⟩
  · cases h
    exact .inl ⟨rfl, rfl⟩

/-- A keyword that is no parameter, with the layout behind it. -/
theorem Gives.keyword? {g : Field} (hkind : t.kind = .keyword)
    (hg : Field.parse? t.text .text none = some g) (hls : ∀ l ∈ ls, l.isLayout = true)
    (hus : ∀ u ∈ us.head?, u.isLayout = false)
    (hother : parameterInFront .data (t :: (ls ++ us)) = false) :
    Gives (Production.keyword? .data) (t :: (ls ++ us))
      (some (g.setLayout (Layout.ofTokens? ls))) us := by
  refine Gives.currentKind.bind (.get_bind fun d hd ↦ ?_)
  have hahead : parameterAhead .data d.stream = false := by
    rw [parameterAhead_eq, show d.stream.rest = t :: (ls ++ us) from hd]
    exact hother
  have haccepts : accepts .text t = true := by rw [accepts, Token.isLayout_of_kind hkind rfl]; rfl
  rw [List.head?_cons, Option.map_some, hkind, hahead]
  exact (Gives.value_append haccepts hg hls hus).bind .pure

/-- Where a parameter starts, or something else than a keyword stands, there is no keyword. -/
theorem Gives.no_keyword? (h : ∀ t ∈ ts.head?, t.kind = .keyword →
    parameterInFront .data ts = true) : Gives (Production.keyword? .data) ts none ts := by
  refine Gives.currentKind.bind (.get_bind fun d hd ↦ ?_)
  have hnone : (ts.head?.map (·.kind) == some .keyword && !parameterAhead .data d.stream) =
      false := by
    rw [← Bool.not_eq_true, Bool.and_eq_true, beq_iff_eq, Option.map_eq_some_iff]
    rintro ⟨⟨t, ht, hkind⟩, hahead⟩
    rw [parameterAhead_eq, show d.stream.rest = ts from hd, h t ht hkind] at hahead
    cases hahead
  rw [hnone]
  exact .pure

/-- A keyword in front of pairs is read as it is in front of others. -/
theorem exists_gives_keyword? {o : Option Field} (hlex : c.IsLexed)
    (h : (keyword? .data).run c = (.ok o, c'))
    (hstarts : ∀ t ∈ c'.rest.head?, startsNuclide t = true) : ∃ ts, c.rest = ts ++ c'.rest ∧
      ∀ us ws, us ≠ [] → us.head? = c'.rest.head? → (∀ u ∈ us, u.kind ≠ .equals) → BarsEquals ws →
        Gives (keyword? .data) (ts ++ (us ++ ws)) o (us ++ ws) := by
  rcases keyword?_cases h with ⟨rfl, rfl⟩ | ⟨t, f, hhead, hkind, rfl, hvalue⟩
  · refine ⟨[], rfl, fun us ws hne hus _ _ ↦ .no_keyword? fun u hu hkind ↦ ?_⟩
    rw [List.nil_append, List.head?_append_of_ne_nil _ hne] at hu
    have hu := hstarts u (hus ▸ hu)
    rw [startsNuclide, hkind] at hu
    cases hu
  · obtain ⟨-, _, hrest, u, ls, g, hu, rfl, -, hg, hls, rfl⟩ :=
      Reads.value_tokens _ _ hlex _ _ hvalue
    obtain rfl : u = t := Option.some.inj (hu.symm.trans hhead)
    refine ⟨u :: ls, hrest, fun us ws hne hus hequals hws ↦ .keyword? hkind hg hls ?_ ?_⟩
    · intro v hv
      rw [List.head?_append_of_ne_nil _ hne] at hv
      exact isLayout_of_startsNuclide (hstarts v (hus ▸ hv))
    · rw [← List.append_assoc]
      refine parameterInFront_keyword hkind
        (List.forall_mem_append.mpr ⟨fun l hl hequal ↦ ?_, hequals⟩) hws
      have hlayout := hls l hl
      rw [Token.isLayout_of_kind hequal rfl] at hlayout
      cases hlayout

/-- The body of a data record is a material only behind the name `m`. -/
theorem run_body_nuclides {cl : Classifier} {ns : Nuclides}
    (h : (body .data cl).run c = (.ok (.nuclides ns), c')) :
    Text.sameWord cl.word "m" = true ∧ nuclides.run c = (.ok ns, c') := by
  obtain ⟨o, c₁, ⟨⟩, h⟩ := run_bind_ok h
  split_ifs at h with hmaterial
  · obtain ⟨ns', c₂, hns, ⟨⟩⟩ := run_bind_ok h
    rw [Bool.and_eq_true, Bool.and_eq_true] at hmaterial
    exact ⟨hmaterial.1.1, hns⟩
  · obtain ⟨l, c₂, -, ⟨⟩⟩ := run_bind_ok h
  · cases h

/-- Behind the name `m` a material is read from the tokens that spell its pairs. -/
theorem SpellPairs.gives_body {cl : Classifier} (h : SpellPairs ts ns) (hne : ns ≠ [])
    (hword : Text.sameWord cl.word "m" = true)
    (hws : ∀ w ∈ ws.head?, w.isLayout = false ∧ startsNuclide w = false) :
    Gives (body .data cl) (ts ++ ws) (.nuclides ⟨ns⟩) ws := by
  obtain ⟨t, us, rfl⟩ := List.exists_cons_of_ne_nil (h.ne_nil hne)
  have hstarts : startsNuclide t = true := h.startsNuclide_head t rfl
  have hallows : Grammar.data.allows .nuclides = true := by decide
  refine Gives.current.bind ?_
  rw [hword, hallows, List.cons_append, List.head?_cons, Option.any_some, hstarts]
  exact (h.gives hne hws).bind .pure

/-- How a material has been read: a front, pairs, and what is behind them.  It is read so with other
pairs that start alike, and with its end at another place. -/
structure MaterialReading (ts : List Token) (d : DataRecord) (ns : Nuclides)
    (front us ws : List Token) : Prop where
  split : ts = front ++ (us ++ ws)
  spells : SpellPairs us ns.pairs
  nonempty : ns.pairs ≠ []
  ending : IsEnding d.parameters ws
  readAs : d.parameters.ReadAs (textOf ws)
  again : ∀ us' ms ws', SpellPairs us' ms → us'.head? = us.head? → List.Forall₂ Token.Alike ws ws' →
    BarsEquals ws' →
    GivesSome (data .data) (front ++ (us' ++ ws')) (· = { d with body := .nuclides ⟨ms⟩ }) []

/-- The record of a material was read from its front, its pairs and what stands behind them. -/
theorem exists_materialReading {d : DataRecord} {ns : Nuclides} (hlex : c.IsLexed)
    (h : (data .data).run c = (.ok d, c')) (herrors : c'.errors = [])
    (hbody : d.body = .nuclides ns) : ∃ front us ws, MaterialReading c.rest d ns front us ws := by
  rw [data_eq_ending] at h
  obtain ⟨leading, c₁, hleading, h⟩ := run_bind_ok h
  obtain ⟨cl, c₂, hclassifier, h⟩ := run_bind_ok h
  obtain ⟨keyword, c₃, hkeyword, h⟩ := run_bind_ok h
  obtain ⟨body, c₄, hbodyRun, h⟩ := run_bind_ok h
  obtain ⟨ps, c₅, hending, ⟨⟩⟩ := run_bind_ok h
  change body = .nuclides ns at hbody
  subst hbody
  obtain ⟨hword, hnuclides⟩ := run_body_nuclides hbodyRun
  obtain ⟨ls, hls, hgivesLeading⟩ := Peeks.layout hleading
  obtain ⟨cs, hcs, hgivesClassifier⟩ := Peeks.classifier .data hclassifier
  have hlex₂ : c₂.IsLexed := (hlex.of_append hls).of_append hcs
  obtain ⟨-, ks, hks, -⟩ := Reads.keyword? .data hlex₂ _ _ hkeyword
  have hlex₃ : c₃.IsLexed := hlex₂.of_append hks
  obtain ⟨-, us, hus, hpairs, hne⟩ := Reads.nuclides_tokens hlex₃ _ _ hnuclides
  have husNil : us ≠ [] := hpairs.ne_nil hne
  have hsettled : c₄.IsSettled := keeps_nuclides _ _ _ (keeps_keyword? .data _ _ _
    (settles_classifier .data _ _ _ hclassifier) hkeyword) hnuclides
  obtain ⟨hisEnding, hreadAs⟩ := isEnding_of_run (hlex₃.of_append hus) hsettled hending herrors
  have hhead : c₃.rest.head? = us.head? := by rw [hus, List.head?_append_of_ne_nil _ husNil]
  obtain ⟨ks', hks', hgivesKeyword⟩ :=
    exists_gives_keyword? hlex₂ hkeyword (hhead ▸ hpairs.startsNuclide_head)
  obtain rfl : ks = ks' := List.append_cancel_right (hks.symm.trans hks')
  refine ⟨ls ++ (cs ++ ks), us, c₄.rest, {
    split := by rw [hls, hcs, hks, hus]; simp only [List.append_assoc]
    spells := hpairs
    nonempty := hne
    ending := hisEnding
    readAs := hreadAs
    again := fun us' ms ws' hms hstart halike hbars ↦ ?_ }⟩
  have hus' : us' ≠ [] := by
    rintro rfl
    exact husNil (List.head?_eq_none_iff.mp hstart.symm)
  have hms' : ms ≠ [] := by
    rintro rfl
    obtain ⟨_ | ⟨vs, tss⟩, htss, rfl⟩ := hms
    · exact hus' rfl
    · cases htss
  have hisEnding' := hisEnding.alike halike
  have hstart' : us'.head? = c₃.rest.head? := hstart.trans hhead.symm
  have hheadOf (as : List Token) : (as ++ (us' ++ ws')).head? = (as ++ c₃.rest).head? := by
    have hhead' : (us' ++ ws').head? = c₃.rest.head? := by
      rw [List.head?_append_of_ne_nil _ hus', hstart']
    rw [List.head?_append, hhead', ← List.head?_append]
  rw [data_eq_ending, List.append_assoc, List.append_assoc]
  refine (hgivesLeading _ (by simp [hus'])
    (by rw [hcs, hks, ← List.append_assoc, hheadOf, List.append_assoc])).bind_some
      ((hgivesClassifier _ (by simp [hus']) (by rw [hks, hheadOf])).bind_some
        ((hgivesKeyword us' ws' hus' hstart' hms.kind_ne_equals hbars).bind_some
          ((hms.gives_body hms' hword fun w hw ↦
            ⟨hisEnding'.solid w hw, hisEnding'.startsNuclide_eq w hw⟩).bind_some
              (hisEnding'.gives.bind ?_))))
  rintro _ rfl
  exact Gives.pure.givesSome rfl

end Production

end TransportDeck
