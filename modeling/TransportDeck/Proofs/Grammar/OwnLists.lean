import TransportDeck.Proofs.Grammar.Lists
import TransportDeck.Proofs.Reconcile.OwnRuns

/-!
# Lists that are read and built anew

A list that is read from a record and built anew from its own values comes back as it was written,
if each of its runs stands alone: it stands for at least one value, what it stands for follows its
own rule within the tolerance, and no plain value next to it would fit it as well.
-/

namespace TransportDeck

/-! ## Values as they are read -/

/-- A value that was read from a token of its own. -/
structure Field.IsPlain (f : Field) : Prop where
  not_apart : f.signFlag.apart = false
  exists_value : ∃ v, f.value = some v ∧ v.kind = f.kind ∧ v.IsRegular

namespace Field

variable {f : Field}

/-- A field that is read from a token holds a value of its own kind, with no sign apart. -/
theorem isPlain_of_parse? {token : String} {kind : ValueKind} {l : Option Layout}
    (h : parse? token kind l = some f) :
    f.IsPlain := by
  obtain ⟨-, -, hapart, v, hvalue, -, hregular⟩ := parsed_of_parse? h
  refine ⟨hapart, v, hvalue, ?_, hregular⟩
  obtain ⟨u, hu, rfl⟩ := Option.map_eq_some_iff.mp h
  obtain rfl : u = v := Option.some.inj hvalue
  cases kind with
  | int =>
    obtain ⟨n, -, rfl⟩ := Option.map_eq_some_iff.mp hu
    rfl
  | real =>
    obtain ⟨x, -, rfl⟩ := Option.map_eq_some_iff.mp hu
    rfl
  | text =>
    obtain rfl := Option.some.inj hu
    rfl

theorem IsPlain.setLayout (h : f.IsPlain) (l : Option Layout) : (f.setLayout l).IsPlain :=
  ⟨h.not_apart, h.exists_value⟩

/-- The value of a plain field is signed as it stands. -/
theorem IsPlain.exists_signed (h : f.IsPlain) :
    ∃ v, f.signed = some v ∧ v.kind = f.kind ∧ v.IsRegular := by
  obtain ⟨v, hvalue, hkind, hregular⟩ := h.exists_value
  exact ⟨v, by simp [signed, h.not_apart, hvalue], hkind, hregular⟩

/-- A plain field has a value, so it is no place left open. -/
theorem IsPlain.isJump (h : f.IsPlain) : f.isJump = false := by
  obtain ⟨v, hvalue, -⟩ := h.exists_value
  simp [Field.isJump, hvalue]

/-- A computed number is a number, unless it is to be a word. -/
theorem toReal?_new_real (x : Float) {kind : ValueKind} (h : kind ≠ .text) :
    (Field.new (some (.real x)) kind).toReal?.isSome = true := by
  cases kind with
  | int =>
    simp only [Field.new, toReal?, signed, SignFlag.apart, Bool.or_self, Bool.false_and,
      if_neg Bool.false_ne_true, Option.map_some, Value.coerce, Option.bind_some]
    split_ifs <;> rfl
  | real => rfl
  | text => exact absurd rfl h

end Field

namespace Production.Reads

variable {c : Cursor}

/-- A value that is read is a plain field. -/
theorem plainValue (kind : ValueKind) (expected : String) :
    Reads (Production.value kind expected) c fun f _ ↦ f.IsPlain := by
  refine .current ?_
  split
  · exact unexpected
  · next t ht =>
    obtain ⟨hhead, -⟩ := Option.filter_eq_some_iff.mp ht
    obtain ⟨us, hrest⟩ := List.head?_eq_some_iff.mp hhead
    split
    · exact unexpected
    · next f hf =>
      refine (advance hrest).bind ?_
      rintro _ _ c' - rfl
      exact layout.bind fun l ts c'' _ _ ↦ .pure ((Field.isPlain_of_parse? hf).setLayout l)

end Production.Reads

/-! ## Runs as they are read -/

/-- The last value of the items. -/
def lastField (items : List Item) : Option Field := (items.flatMap Item.fields).getLast?

namespace Lead

/-- What is taken before a token behind the items that stay. -/
def Behind (prior : List Item) : Lead → Prop
  | owned f => f.IsPlain
  | chained v => (∃ pre r, prior = pre ++ [.run r]) ∧ v = (lastField prior).bind Field.signed

end Lead

namespace Shorthand

/-- The value that a chained run goes on from. -/
def start (s : Shorthand) (prior : List Item) : List Field :=
  if s.chained then (lastField prior).toList else []

/-- A run that a token and the values around it give, behind other items. -/
structure IsMade (prior : List Item) (s : Shorthand) : Prop where
  written : s.synthesized = false
  not_jump_of_chained : s.chained = true → s.kind ≠ .jump
  behind_run : s.chained = true → ∃ pre r, prior = pre ++ [.run r]
  anchor_eq : s.anchor = if s.chained then (lastField prior).bind Field.toReal? else none
  canRoot : ∀ f ∈ s.members, Reconcile.canRootAt s f = true
  alike : s.kind = .copies → ∃ v, (s.chained = false → v.IsRegular) ∧
    ∀ f ∈ s.start prior ++ s.members, f.signed = some v
  pair : s.kind = .multiply → s.members.length = if s.chained then 1 else 2

variable {id : Nat} {kind : ShorthandKind} {token : String} {l : Option Layout} {s : Shorthand}
variable {prior : List Item} {lead : Lead}

/-- A run without members. -/
structure IsBare (id : Nat) (kind : ShorthandKind) (s : Shorthand) : Prop where
  id_eq : s.id = id
  kind_eq : s.kind = kind
  written : s.synthesized = false
  unchained : s.chained = false
  no_anchor : s.anchor = none

/-- A run starts as the bare run of its token, without a lead and without members. -/
theorem isBare_ofToken (h : ofToken id kind token l = .ok s) : s.IsBare id kind := by
  unfold ofToken at h
  dsimp only at h
  split_ifs at h
  · obtain rfl := Except.ok.inj h
    exact ⟨rfl, rfl, rfl, rfl, rfl⟩
  · split at h
    · obtain rfl := Except.ok.inj h
      exact ⟨rfl, rfl, rfl, rfl, rfl⟩
    · cases h

/-- A jump is made from its token alone, whatever stands in front of it. -/
theorem isMade_jump (h : jump id token l = .ok s) : s.id = id ∧ s.IsMade prior := by
  obtain ⟨bare, hbare, h⟩ := exists_of_bind_ok h
  obtain ⟨n, -, h⟩ := exists_of_bind_ok h
  obtain rfl := Except.ok.inj h
  have hb := isBare_ofToken hbare
  have hkind := hb.kind_eq
  refine ⟨hb.id_eq, hb.written, ?_, ?_, ?_, ?_, ?_, ?_⟩
  · simp [hb.unchained]
  · simp [hb.unchained]
  · simp [hb.unchained, hb.no_anchor]
  · intro f hf
    rw [List.eq_of_mem_replicate hf]
    simp [Reconcile.canRootAt, hkind, Field.jump, Field.new, Field.isJump]
  · simp [hkind]
  · simp [hkind]

/-! ### Runs with a lead -/

/-- The values that a run has from its lead on. -/
theorem start_withLead (hlead : lead.Behind prior) {v : Value} (hv : lead.value = some v)
    (rest : List Field) :
    ∃ f, (s.withLead lead rest).start prior ++ (s.withLead lead rest).members = f :: rest ∧
      f.signed = some v := by
  cases lead with
  | owned f => exact ⟨f, rfl, hv⟩
  | chained u =>
    obtain ⟨-, hu⟩ := hlead
    obtain rfl : u = some v := hv
    obtain ⟨f, hlast, hf⟩ := Option.bind_eq_some_iff.mp hu.symm
    refine ⟨f, ?_, hf⟩
    simp [start, withLead, Lead.isChained, Lead.members, hlast]

/-- A run that is chained is anchored at the last number in front of it. -/
theorem anchor_withLead (hlead : lead.Behind prior) (rest : List Field) :
    (s.withLead lead rest).anchor =
    if (s.withLead lead rest).chained then (lastField prior).bind Field.toReal? else none := by
  cases lead with
  | owned f => rfl
  | chained v =>
    obtain ⟨-, rfl⟩ := hlead
    simp only [withLead, Lead.anchor, Lead.isChained, if_true, Option.bind_assoc]
    rfl

/-- A bare run with a lead is made as a run that is read has to be, if its values can take root in
it. -/
theorem IsBare.isMade_withLead (h : s.IsBare id kind) (hkind : kind ≠ .jump)
    (hlead : lead.Behind prior) {rest : List Field}
    (hroot : ∀ f ∈ lead.members ++ rest, Reconcile.canRootAt s f = true)
    (halike : kind = .copies → ∃ v, (lead.isChained = false → v.IsRegular) ∧
      ∀ f ∈ (s.withLead lead rest).start prior ++ (s.withLead lead rest).members, f.signed = some v)
    (hpair : kind = .multiply → rest.length = 1) : (s.withLead lead rest).IsMade prior where
  written := h.written
  not_jump_of_chained _ := by
    change s.kind ≠ .jump
    rwa [h.kind_eq]
  behind_run hchained := by
    cases lead with
    | owned f => cases hchained
    | chained v => exact hlead.1
  anchor_eq := anchor_withLead hlead rest
  canRoot := hroot
  alike hk := halike (h.kind_eq.symm.trans hk)
  pair hk := by
    have hrest := hpair (h.kind_eq.symm.trans hk)
    cases lead <;> simp [withLead, Lead.members, Lead.isChained, hrest]

/-- What leads a run has a regular value, unless it is chained and the value belongs to the run
before. -/
theorem exists_value_of_behind (hlead : lead.Behind prior) {v : Value} (hv : lead.value = some v) :
    (lead.isChained = false → v.IsRegular) ∧ (lead.isChained = false → v.kind = lead.kind) := by
  cases lead with
  | owned f =>
    obtain ⟨u, hu, hkind, hregular⟩ := Field.IsPlain.exists_signed hlead
    obtain rfl : u = v := Option.some.inj (hu.symm.trans hv)
    exact ⟨fun _ ↦ hregular, fun _ ↦ hkind⟩
  | chained u => exact ⟨nofun, nofun⟩

/-- A repeat of a value is made as a run that is read has to be. -/
theorem isMade_of_copies {bare : Shorthand} {template : Field} {v : Value} {n : Nat}
    (hb : bare.IsBare id .copies) (hlead : lead.Behind prior) (hv : lead.value = some v)
    (htemplate : template.signed = some v) :
    (bare.withLead lead (List.replicate n (template.withLayout .gap))).IsMade prior := by
  obtain ⟨f, hvalues, hf⟩ :=
    start_withLead (s := bare) hlead hv (List.replicate n (template.withLayout .gap))
  have halike : ∀ g ∈
    (bare.withLead lead (List.replicate n (template.withLayout .gap))).start prior ++
      (bare.withLead lead (List.replicate n (template.withLayout .gap))).members, g.signed =
      some v := by
    rw [hvalues, List.forall_mem_cons]
    exact ⟨hf, fun g hg ↦ by rw [List.eq_of_mem_replicate hg, Field.signed_withLayout, htemplate]⟩
  refine hb.isMade_withLead nofun hlead (fun g hg ↦ ?_)
    (fun _ ↦ ⟨v, (exists_value_of_behind hlead hv).1, halike⟩) nofun
  have hnone : ¬g.isJump = true := by
    rw [← Field.signed_eq_none_iff, halike g (List.mem_append_right _ hg)]
    nofun
  simpa [Reconcile.canRootAt, hb.kind_eq] using hnone

/-- A repeat is made from its token and its lead. -/
theorem isMade_copies (h : copies id lead token l = .ok s) (hlead : lead.Behind prior) :
    s.id = id ∧ s.IsMade prior := by
  obtain ⟨bare, n, v, hbare, -, hv, rfl⟩ := exists_of_copies_ok h
  have hb := isBare_ofToken hbare
  exact ⟨hb.id_eq, isMade_of_copies hb hlead hv (Lead.signed_template hv)⟩

/-- What needs a number in front of it got one. -/
theorem toReal?_of_needNumber {name : String} {v : Option Value} {x : Float}
    (h : needNumber name v = .ok x) : ∃ u, v = some u ∧ u.toReal? = some x := by
  unfold needNumber at h
  split at h
  · cases h
  · next u =>
    split at h
    · cases h
    · next y hy => exact ⟨u, rfl, hy.trans (congrArg some (Except.ok.inj h))⟩

/-- A lead that is a number, and the numbers that are computed from it. -/
theorem isNumber_of_lead (hlead : lead.Behind prior) {name : String} {x : Float}
    (h : needNumber name lead.value = .ok x) :
    lead.kind ≠ .text ∧ ∀ f ∈ lead.members, f.toReal?.isSome = true := by
  obtain ⟨v, hv, hreal⟩ := toReal?_of_needNumber h
  cases lead with
  | owned f =>
    constructor
    · rw [← (exists_value_of_behind hlead hv).2 rfl]
      rintro hk
      cases v <;> cases hk
      cases hreal
    · rw [Lead.members, List.forall_mem_singleton, Field.toReal?, show f.signed =
        some v from hv, Option.bind_some, hreal]
      rfl
  | chained u => exact ⟨by simp [Lead.kind], by simp [Lead.members]⟩

/-- A number can take root in a multiplication or an interpolation. -/
theorem canRootAt_of_number {f : Field} (hkind : s.kind = .multiply ∨ s.kind.isInterpolation = true)
    (h : f.toReal?.isSome = true) : Reconcile.canRootAt s f = true := by
  unfold Reconcile.canRootAt
  split
  · simp_all [ShorthandKind.isInterpolation]
  · simp_all [ShorthandKind.isInterpolation]
  · exact h

/-- A multiplication is made from its token and its lead. -/
theorem isMade_multiply (h : multiply id lead token l = .ok s) (hlead : lead.Behind prior) :
    s.id = id ∧ s.IsMade prior := by
  obtain ⟨bare, f, factor, base, hbare, -, -, hbase, rfl⟩ := exists_of_multiply_ok h
  have hb := isBare_ofToken hbare
  obtain ⟨hkind, hmembers⟩ := isNumber_of_lead hlead hbase
  refine ⟨hb.id_eq, hb.isMade_withLead nofun hlead ?_ nofun fun _ ↦ rfl⟩
  rw [List.forall_mem_append, List.forall_mem_singleton]
  exact ⟨fun f hf ↦ canRootAt_of_number (.inl hb.kind_eq) (hmembers f hf),
    canRootAt_of_number (.inl hb.kind_eq) (Field.toReal?_new_real _ hkind)⟩

/-- The layout in the middle of a run and its spacing do not matter for how it was made. -/
theorem isMade_steps (h : s.IsMade prior) (mid : Option Layout) (spacing : Option Float) :
    ({ s with midLayout := mid, spacing } : Shorthand).IsMade prior :=
  ⟨h.written, h.not_jump_of_chained, h.behind_run, h.anchor_eq, h.canRoot, h.alike, h.pair⟩

/-- An interpolation is made from its token, its lead and the value behind it. -/
theorem isMade_interpolate {mid : Option Layout} {last : Field}
    (hinter : kind.isInterpolation = true) (h : interpolate id kind lead token mid last = .ok s)
    (hlead : lead.Behind prior) : s.id = id ∧ s.IsMade prior := by
  obtain ⟨bare, first, finish, points, spacing, hbare, -, hfirst, hfinish, rfl⟩ :=
    exists_of_interpolate_ok h
  have hb := isBare_ofToken hbare
  obtain ⟨hkind, hmembers⟩ := isNumber_of_lead hlead hfirst
  have hnumber {f : Field} (hf : f.toReal?.isSome = true) : Reconcile.canRootAt bare f = true :=
    canRootAt_of_number (.inr (hb.kind_eq ▸ hinter)) hf
  have hne {k : ShorthandKind} (hk : k.isInterpolation = false) : kind ≠ k := by
    rintro rfl
    rw [hk] at hinter
    cases hinter
  refine ⟨hb.id_eq,
    isMade_steps (hb.isMade_withLead (hne rfl) hlead ?_ (fun hk ↦ absurd hk (hne rfl)) fun hk ↦
      absurd hk (hne rfl)) mid _⟩
  rw [List.forall_mem_append, List.forall_mem_append, List.forall_mem_singleton]
  refine ⟨fun f hf ↦ hnumber (hmembers f hf), fun f hf ↦ ?_, hnumber (by rw [hfinish]; rfl)⟩
  obtain ⟨i, -, rfl⟩ := List.mem_map.mp hf
  exact hnumber (Field.toReal?_new_real _ hkind)

/-! ### The layout behind a run -/

theorem id_setTrailing (s : Shorthand) (l : Option Layout) : (s.setTrailing l).id = s.id := by
  unfold setTrailing
  split_ifs <;> rfl

/-- Only the last of the fields is changed. -/
theorem mem_mapLast {g : Field → Field} {fs : List Field} {f : Field} (h : f ∈ mapLast g fs) :
    ∃ f₀ ∈ fs, f = f₀ ∨ f = g f₀ := by
  obtain hnil | ⟨as, a, hfs⟩ := fs.eq_nil_or_concat
  · rw [hnil] at h
    cases h
  · rw [hfs, List.concat_eq_append] at h ⊢
    rw [mapLast_eq, List.mem_append, List.mem_singleton] at h
    obtain h | h := h
    · exact ⟨f, List.mem_append_left _ h, .inl rfl⟩
    · exact ⟨a, List.mem_append_right _ List.mem_cons_self, .inr h⟩

theorem IsMade.setTrailing (h : s.IsMade prior) : (s.setTrailing none).IsMade prior := by
  unfold Shorthand.setTrailing
  split_ifs with hinter
  · have hne {k : ShorthandKind} (hk : k.isInterpolation = false) : s.kind ≠ k := by
      intro hkind
      rw [hkind, hk] at hinter
      cases hinter
    refine ⟨h.written, h.not_jump_of_chained, h.behind_run, h.anchor_eq, fun f hf ↦ ?_,
      fun hk ↦ absurd hk (hne rfl), fun hk ↦ absurd hk (hne rfl)⟩
    obtain ⟨f₀, hf₀, rfl | rfl⟩ := mem_mapLast hf
    · exact h.canRoot f hf₀
    · exact h.canRoot f₀ hf₀
  · exact ⟨h.written, h.not_jump_of_chained, h.behind_run, h.anchor_eq, h.canRoot, h.alike, h.pair⟩

end Shorthand

theorem Item.trailing?_setTrailing (i : Item) : (i.setTrailing none).trailing? = none := by
  cases i with
  | field f => rfl
  | run s =>
    change (s.setTrailing none).trailing? = none
    unfold Shorthand.setTrailing
    split_ifs with hinter
    · obtain hnil | ⟨fs, f, hfs⟩ := s.members.eq_nil_or_concat
      · simp [Shorthand.trailing?, hinter, hnil, Shorthand.mapLast]
      · rw [hfs, List.concat_eq_append, Shorthand.mapLast_eq]
        simp [Shorthand.trailing?, hinter, Field.setLayout]
    · simp [Shorthand.trailing?, hinter]

/-! ## Lists as they are read -/

namespace FieldList

/-- A list whose values and runs were read, each behind those before it. -/
structure Made (l : FieldList) : Prop where
  plain : ∀ f, .field f ∈ l.items → f.IsPlain
  made : ∀ pre s post, l.items = pre ++ .run s :: post → s.IsMade pre
  fresh : ∀ pre s post, l.items = pre ++ .run s :: post → ∀ r, .run r ∈ pre → r.id < s.id
  below : ∀ s, .run s ∈ l.items → s.id < l.nextId

variable {l : FieldList}

/-- The empty list is one that was read. -/
theorem made_empty : empty.Made where
  plain f hf := by simp [empty] at hf
  made pre s post h := by simp [empty] at h
  fresh pre s post h := by simp [empty] at h
  below s hs := by simp [empty] at hs

theorem Made.takeId (h : l.Made) : l.takeId.Made :=
  ⟨h.plain, h.made, h.fresh, fun s hs ↦ (h.below s hs).trans (Nat.lt_succ_self _)⟩

/-- The items in front of one that is split off. -/
theorem Made.of_prefix {l' : FieldList} {more : List Item} (h : l.Made)
    (hitems : l.items = l'.items ++ more) (hnext : l'.nextId = l.nextId) : l'.Made where
  plain f hf := h.plain f (hitems ▸ List.mem_append_left _ hf)
  made pre s post hpre := h.made pre s (post ++ more) (by simp [hitems, hpre])
  fresh pre s post hpre := h.fresh pre s (post ++ more) (by simp [hitems, hpre])
  below s hs := hnext ▸ h.below s (hitems ▸ List.mem_append_left _ hs)

/-- Where the last item stands in a list. -/
theorem append_eq_concat {items pre post : List Item} {i j : Item}
    (h : items ++ [i] = pre ++ j :: post) :
    (∃ post', items = pre ++ j :: post') ∨ items = pre ∧ i = j := by
  obtain rfl | ⟨post', k, rfl⟩ := post.eq_nil_or_concat
  · obtain ⟨hitems, hlast⟩ := List.append_inj' h rfl
    exact .inr ⟨hitems, (List.cons.inj hlast).1⟩
  · rw [List.concat_eq_append, ← List.cons_append, ← List.append_assoc] at h
    exact .inl ⟨post', (List.append_inj' h rfl).1⟩

/-- A list that was read stays one with a plain field behind it. -/
theorem Made.concat_field {l' : FieldList} {f : Field} (h : l.Made) (hf : f.IsPlain)
    (hitems : l'.items = l.items ++ [.field f]) (hnext : l'.nextId = l.nextId) : l'.Made where
  plain g hg := by
    rw [hitems, List.mem_append, List.mem_singleton] at hg
    obtain hg | hg := hg
    · exact h.plain g hg
    · exact Item.field.inj hg ▸ hf
  made pre s post hpre := by
    obtain ⟨post', hitems'⟩ | ⟨-, hs⟩ := append_eq_concat (hitems.symm.trans hpre)
    · exact h.made pre s post' hitems'
    · cases hs
  fresh pre s post hpre := by
    obtain ⟨post', hitems'⟩ | ⟨-, hs⟩ := append_eq_concat (hitems.symm.trans hpre)
    · exact h.fresh pre s post' hitems'
    · cases hs
  below s hs := by
    rw [hitems, List.mem_append, List.mem_singleton] at hs
    obtain hs | hs := hs
    · exact hnext ▸ h.below s hs
    · cases hs

/-- A list that was read stays one with a run of a fresh number behind it. -/
theorem Made.concat_run {l' : FieldList} {s : Shorthand} (h : l.Made) (hs : s.IsMade l.items)
    (hfresh : ∀ r, .run r ∈ l.items → r.id < s.id) (hitems : l'.items = l.items ++ [.run s])
    (hnext : l.nextId ≤ l'.nextId) (hbelow : s.id < l'.nextId) : l'.Made where
  plain f hf := by
    rw [hitems, List.mem_append, List.mem_singleton] at hf
    obtain hf | hf := hf
    · exact h.plain f hf
    · cases hf
  made pre r post hpre := by
    obtain ⟨post', hitems'⟩ | ⟨rfl, hr⟩ := append_eq_concat (hitems.symm.trans hpre)
    · exact h.made pre r post' hitems'
    · exact Item.run.inj hr ▸ hs
  fresh pre r post hpre := by
    obtain ⟨post', hitems'⟩ | ⟨rfl, hr⟩ := append_eq_concat (hitems.symm.trans hpre)
    · exact h.fresh pre r post' hitems'
    · exact Item.run.inj hr ▸ hfresh
  below r hr := by
    rw [hitems, List.mem_append, List.mem_singleton] at hr
    obtain hr | hr := hr
    · exact (h.below r hr).trans_le hnext
    · exact Item.run.inj hr ▸ hbelow

theorem Made.pushField {f : Field} (h : l.Made) (hf : f.IsPlain) : (l.pushField f).Made :=
  h.concat_field hf rfl rfl

/-- A run with a number that has been counted up for it, on the list or on what its lead leaves of
it. -/
theorem Made.pushRun {l' : FieldList} {s : Shorthand} (h : l'.Made)
    (hbelow : ∀ r, .run r ∈ l'.items → r.id < l.nextId) (hs : s.id = l.nextId ∧ s.IsMade l'.items) :
    (l'.pushRun s).Made := by
  refine h.concat_run hs.2 (fun r hr ↦ hs.1 ▸ hbelow r hr) rfl (Nat.le_max_left _ _) ?_
  exact Nat.lt_of_lt_of_le (Nat.lt_succ_self _) (Nat.le_max_right _ _)

/-- Without its last field a list that was read is one still, and the field is plain. -/
theorem Made.popField? {f : Field} {rest : FieldList} (h : l.Made)
    (hpop : l.popField? = some (f, rest)) :
    f.IsPlain ∧ rest.Made ∧ ∀ i ∈ rest.items, i ∈ l.items := by
  unfold FieldList.popField? at hpop
  split at hpop
  · next g hlast =>
    obtain ⟨rfl, rfl⟩ := Prod.mk.inj (Option.some.inj hpop)
    have hitems : l.items = l.items.dropLast ++ [.field g] :=
      (List.dropLast_append_getLast? _ hlast).symm
    exact ⟨h.plain g (List.mem_of_getLast? hlast), h.of_prefix hitems rfl,
      fun i hi ↦ List.mem_of_mem_dropLast hi⟩
  · cases hpop

theorem exists_run_of_endsWithRun (l : FieldList) (h : l.endsWithRun = true) :
    ∃ pre r, l.items = pre ++ [.run r] := by
  unfold endsWithRun at h
  split at h
  · next r hlast => exact ⟨_, r, (List.dropLast_append_getLast? _ hlast).symm⟩
  · cases h

/-! ### The layout behind a list -/

/-- The layout at the end of a list is cut off, and the list is one that was read still. -/
theorem Made.detachTail (h : l.Made) :
    l.detachTail.Made ∧ ∀ i ∈ l.detachTail.items.getLast?, i.trailing? = none := by
  unfold FieldList.detachTail
  split
  · next layout hlayout =>
    obtain ⟨i, hlast, -⟩ := Option.bind_eq_some_iff.mp hlayout
    obtain ⟨items, hitems⟩ := List.getLast?_eq_some_iff.mp hlast
    have hmap : l.mapLastItem (·.setTrailing none) =
        { l with items := items ++ [i.setTrailing none] } := by
      rw [FieldList.mapLastItem, hlast, hitems]
      simp
    have hbefore : Made { l with items } := h.of_prefix hitems rfl
    rw [hmap]
    constructor
    · cases i with
      | field f =>
        exact hbefore.concat_field ((h.plain f (List.mem_of_getLast? hlast)).setLayout none) rfl rfl
      | run s =>
        have hs : (s.setTrailing none).IsMade items := (h.made items s [] hitems).setTrailing
        have hid : (s.setTrailing none).id = s.id := s.id_setTrailing none
        refine hbefore.concat_run hs (fun r hr ↦ ?_) rfl le_rfl ?_
        · rw [hid]
          exact h.fresh items s [] hitems r hr
        · rw [hid]
          exact h.below s (List.mem_of_getLast? hlast)
    · intro j hj
      change j ∈ (items ++ [i.setTrailing none]).getLast? at hj
      rw [List.getLast?_concat] at hj
      exact Option.some.inj hj ▸ i.trailing?_setTrailing
  · next hnone =>
    exact ⟨h, fun i hi ↦ by rwa [hi] at hnone⟩

end FieldList

namespace Production.Reads

variable {c : Cursor} {g : Grammar} {l : FieldList}

/-- What leads a run stands behind the list in front of it. -/
theorem leadOf_behind {kind : ShorthandKind} {span : Span} (h : l.Made) :
    Reads (Production.leadOf kind span l.takeId) c fun r _ ↦ r.1.Behind r.2.items ∧ r.2.Made ∧
      ∀ s, .run s ∈ r.2.items → s.id < l.nextId := by
  unfold Production.leadOf
  split_ifs with hends
  · exact .pure ⟨⟨l.exists_run_of_endsWithRun hends, rfl⟩, h.takeId, h.below⟩
  · split
    · next f rest hpop =>
      obtain ⟨hf, hrest, hmem⟩ := h.takeId.popField? hpop
      exact .pure ⟨hf, hrest, fun s hs ↦ h.below s (hmem _ hs)⟩
    · exact throw

/-- A run of shorthands is put behind what was read before it. -/
theorem shorthand_made {kind : ShorthandKind} {t : Token} (h : l.Made) :
    Reads (Production.shorthand g kind t l) c fun l' _ ↦ l'.Made := by
  unfold Production.shorthand
  split_ifs
  · exact throw
  cases kind with
  | jump =>
    refine layout.bind fun behind ls c' _ _ ↦ ?_
    refine orMalformed.bind ?_
    rintro s _ c'' - ⟨hs, rfl⟩
    exact .pure (h.takeId.pushRun h.below (Shorthand.isMade_jump hs))
  | copies =>
    refine (leadOf_behind h).bind ?_
    rintro ⟨lead, l'⟩ ts c₁ - ⟨hlead, hmade, hbelow⟩
    refine layout.bind fun behind ls c₂ _ _ ↦ ?_
    refine orMalformed.bind ?_
    rintro s _ c₃ - ⟨hs, rfl⟩
    exact .pure (hmade.pushRun hbelow (Shorthand.isMade_copies hs hlead))
  | multiply =>
    refine (leadOf_behind h).bind ?_
    rintro ⟨lead, l'⟩ ts c₁ - ⟨hlead, hmade, hbelow⟩
    refine layout.bind fun behind ls c₂ _ _ ↦ ?_
    refine orMalformed.bind ?_
    rintro s _ c₃ - ⟨hs, rfl⟩
    exact .pure (hmade.pushRun hbelow (Shorthand.isMade_multiply hs hlead))
  | linear | logarithmic =>
    refine (leadOf_behind h).bind ?_
    rintro ⟨lead, l'⟩ ts c₁ - ⟨hlead, hmade, hbelow⟩
    refine layout.bind fun mid ms c₂ _ _ ↦ ?_
    refine (value _ _).bind fun last vs c₃ _ _ ↦ ?_
    refine orMalformed.bind ?_
    rintro s _ c₄ - ⟨hs, rfl⟩
    exact .pure (hmade.pushRun hbelow (Shorthand.isMade_interpolate rfl hs hlead))

/-- Each item is put behind a list that was read. -/
theorem item?_made {preferred : ValueKind} (h : l.Made) :
    Reads (Production.item? g preferred l) c fun o ts ↦
    match o with
    | some l' => l'.Made
    | none => ts = [] := by
  refine .current ?_
  split
  · exact .pure rfl
  next t hhead =>
  obtain ⟨us, hrest⟩ := List.head?_eq_some_iff.mp hhead
  split
  · exact .map ((plainValue _ _).mono fun f ts hf ↦ h.pushField hf)
  · exact .map ((plainValue _ _).mono fun f ts hf ↦ h.pushField hf)
  · refine (advance hrest).bind ?_
    rintro _ _ c' - rfl
    exact .map ((shorthand_made h).mono fun l' ts hl' ↦ hl')
  · refine .get ?_
    split_ifs
    · exact .pure rfl
    · exact .map ((plainValue _ _).mono fun f ts hf ↦ h.pushField hf)
    · exact .pure rfl

/-- The list of values of a record is one that was read, and there is no layout at its end. -/
theorem values_made (g : Grammar) (preferred : ValueKind) :
    Reads (Production.values g preferred) c fun l _ ↦
    l.Made ∧ ∀ i ∈ l.items.getLast?, i.trailing? = none :=
  .map
    ((loop (I := fun l _ ↦ l.Made)
      (fun _ _ _ _ h ↦ (item?_made h).mono fun o _ ho ↦ by cases o <;> exact ho)
        FieldList.made_empty).mono fun _ _ h ↦ h.detachTail)

end Production.Reads

/-! ## Runs that stand alone -/

def Item.plain? : Item → Option Field
  | field f => some f
  | run _ => none

instance (v : Value) : Decidable v.IsRegular :=
  match v with
  | .int _ | .text _ => .isTrue trivial
  | .real x => inferInstanceAs (Decidable (x.isNaN = false))

namespace Shorthand

/-- A run that wins its members back and no more.  It stands for at least one value; what it stands
for follows its own rule within the tolerance; and a plain value right before or behind it would not
fit it. -/
structure StandsAlone (t : Tolerance) (prior : List Item) (s : Shorthand) (later : List Item) :
    Prop where
  enough : s.minimumMembers s.chained ≤ s.members.length
  regular : s.kind = .copies → s.chained = true → ∀ f ∈ s.members, ∀ v ∈ f.signed, v.IsRegular
  nonzero : s.kind = .multiply → ∀ f ∈ (s.start prior ++ s.members).head?, isNonzero f = true
  even : s.kind.isInterpolation = true →
    (s.start prior ++ s.members).IsChain (fun f g ↦ s.stepFits t f g true = true)
  before : s.chained = false → ∀ f ∈ prior.getLast?.bind Item.plain?,
    ∀ g ∈ s.members.head?, s.accepts t g f false 1 = false
  behind : ∀ f ∈ later.head?.bind Item.plain?,
    ∀ g ∈ s.members.getLast?, s.accepts t g f true s.members.length = false

variable {t : Tolerance} {s : Shorthand} {prior later : List Item}

/-- What it says of a run to stand alone, with the cases of the four kinds of runs apart. -/
theorem standsAlone_iff :
    s.StandsAlone t prior later ↔ s.minimumMembers s.chained ≤ s.members.length ∧
      (s.kind = .copies → s.chained = true → ∀ f ∈ s.members, ∀ v ∈ f.signed, v.IsRegular) ∧
    (s.kind = .multiply → ∀ f ∈ (s.start prior ++ s.members).head?, isNonzero f = true) ∧
    (s.kind.isInterpolation = true →
      (s.start prior ++ s.members).IsChain (fun f g ↦ s.stepFits t f g true = true)) ∧
    (s.chained = false → ∀ f ∈ prior.getLast?.bind Item.plain?,
      ∀ g ∈ s.members.head?, s.accepts t g f false 1 = false) ∧
    ∀ f ∈ later.head?.bind Item.plain?, ∀ g ∈ s.members.getLast?,
      s.accepts t g f true s.members.length = false :=
  ⟨fun h ↦ ⟨h.enough, h.regular, h.nonzero, h.even, h.before, h.behind⟩,
    fun ⟨henough, hregular, hnonzero, heven, hbefore, hbehind⟩ ↦
      ⟨henough, hregular, hnonzero, heven, hbefore, hbehind⟩⟩

instance : Decidable (s.StandsAlone t prior later) := decidable_of_iff _ standsAlone_iff.symm

theorem StandsAlone.members_ne_nil (h : s.StandsAlone t prior later) : s.members ≠ [] := by
  have hpos := Reconcile.minimumMembers_pos s s.chained
  have henough := h.enough
  exact List.ne_nil_of_length_pos (by omega)

/-- The values of a copy run are all the same one, which is equal to itself. -/
theorem StandsAlone.exists_copied (h : s.StandsAlone t prior later) (hmade : s.IsMade prior)
    (hkind : s.kind = .copies) : ∃ v :
    Value, v.IsRegular ∧ ∀ f ∈ s.start prior ++ s.members, f.signed = some v := by
  obtain ⟨v, hregular, halike⟩ := hmade.alike hkind
  refine ⟨v, ?_, halike⟩
  cases hchained : s.chained with
  | false => exact hregular hchained
  | true =>
    obtain ⟨f, hf⟩ := List.exists_mem_of_ne_nil _ h.members_ne_nil
    exact h.regular hkind hchained f hf v (halike f (List.mem_append_right _ hf))

/-- A jump starts at no value. -/
theorem IsMade.start_of_jump (h : s.IsMade prior) (hkind : s.kind = .jump) :
    s.start prior = [] := by
  unfold start
  split_ifs with hchained
  · exact absurd hkind (h.not_jump_of_chained hchained)
  · rfl

/-- Each value of a run that is no product fits the value before it, also that which a chained run
goes on from. -/
theorem StandsAlone.accepts (h : s.StandsAlone t prior later) (hmade : s.IsMade prior)
    (hkind : s.kind ≠ .multiply) {pre post : List Field} {f g : Field}
    (hvalues : s.start prior ++ s.members = pre ++ f :: g :: post) (n : Nat) :
    s.accepts t f g true n = true := by
  have hf : f ∈ s.start prior ++ s.members := by simp [hvalues]
  have hg : g ∈ s.start prior ++ s.members := by simp [hvalues]
  have hstep (hinter : s.kind.isInterpolation = true) : s.stepFits t f g true = true := by
    have heven := h.even hinter
    rw [hvalues] at heven
    exact (List.isChain_cons_cons.mp heven.right_of_append).1
  cases hk : s.kind with
  | jump =>
    rw [hmade.start_of_jump hk, List.nil_append] at hg
    simpa [Shorthand.accepts, Reconcile.canRootAt, hk] using hmade.canRoot g hg
  | copies =>
    obtain ⟨v, hregular, halike⟩ := h.exists_copied hmade hk
    simp only [Shorthand.accepts, hk, halike f hf, halike g hg]
    exact hregular.close_self t
  | multiply => exact absurd hk hkind
  | linear | logarithmic =>
    simp only [Shorthand.accepts, hk]
    exact hstep (by rw [hk]; rfl)

/-- A run stands on: its first member can follow the value that a chained run goes on from. -/
theorem StandsAlone.continuesFrom (h : s.StandsAlone t prior later) (hmade : s.IsMade prior)
    (hchained : s.chained = true) {a f : Field} {rest : List Field}
    (hlast : lastField prior = some a) (hmembers : s.members = f :: rest) :
    s.continuesFrom t a f = true := by
  have hstart : s.start prior = [a] := by simp [start, hchained, hlast]
  have hvalues : s.start prior ++ s.members = [] ++ a :: f :: rest := by rw [hstart, hmembers]; rfl
  cases hk : s.kind with
  | jump => exact absurd hk (hmade.not_jump_of_chained hchained)
  | multiply =>
    simp only [Shorthand.continuesFrom, hk]
    exact h.nonzero hk a (by rw [hvalues]; rfl)
  | copies | linear | logarithmic =>
    have haccepts := h.accepts hmade (by simp [hk]) hvalues 1
    simp only [Shorthand.continuesFrom, hk]
    exact haccepts

/-- The members fit one another. -/
theorem StandsAlone.fits (h : s.StandsAlone t prior later) (hmade : s.IsMade prior)
    {pre post : List Field} {f g : Field} (hmembers : s.members = pre ++ f :: g :: post) :
    s.accepts t f g true (pre.length + 1) = true := by
  by_cases hk : s.kind = .multiply
  · have hpair := hmade.pair hk
    have hlength := congrArg List.length hmembers
    simp only [List.length_append, List.length_cons] at hlength
    -- a product behind another run is its only member
    cases hchained : s.chained with
    | true =>
      rw [hchained, if_pos rfl] at hpair
      omega
    | false =>
      rw [hchained, if_neg Bool.false_ne_true] at hpair
      obtain rfl : pre = [] := List.eq_nil_of_length_eq_zero (by omega)
      have hnumber := hmade.canRoot g (by simp [hmembers])
      have hnonzero := h.nonzero hk f (by simp [start, hchained, hmembers])
      simp only [Reconcile.canRootAt, hk] at hnumber
      simp [Shorthand.accepts, hk, hchained, hnonzero, hnumber]
  · have hvalues : s.start prior ++ s.members = (s.start prior ++ pre) ++ f :: g :: post := by
      rw [hmembers, List.append_assoc]
    exact h.accepts hmade hk hvalues _

end Shorthand

namespace FieldList

variable {t : Tolerance} {l : FieldList}

/-- Each run of the list stands alone between its neighbours. -/
def RunsStandAlone (t : Tolerance) (l : FieldList) : Prop := ∀ n < l.items.length,
  ∀ s ∈ l.items[n]?.bind Item.shorthand?, s.StandsAlone t (l.items.take n) (l.items.drop (n + 1))

instance : Decidable (l.RunsStandAlone t) := by
  unfold RunsStandAlone
  infer_instance

/-- Any run of a list in which all runs stand alone stands alone between its neighbours. -/
theorem RunsStandAlone.standsAlone (h : l.RunsStandAlone t) {pre post : List Item} {s : Shorthand}
    (hitems : l.items = pre ++ .run s :: post) : s.StandsAlone t pre post := by
  have halone := h pre.length (by simp [hitems]) s (by simp [hitems, Item.shorthand?])
  simpa [hitems] using halone

open Reconcile

/-- What is pending at the end of a division is a plain item at the end of the list. -/
theorem getLast?_pending {items : List Item} {f : Field}
    (h : f ∈ (Division.of items).pending.getLast?) : f ∈ items.getLast?.bind Item.plain? := by
  obtain rfl | ⟨items, i, rfl⟩ := items.eq_nil_or_concat
  · cases h
  · rw [List.concat_eq_append] at h ⊢
    rw [Division.of_concat] at h
    cases i with
    | field g =>
      rw [Division.push, List.getLast?_concat] at h
      rw [List.getLast?_concat, Option.some.inj h]
      rfl
    | run s => cases h

/-- Behind a run with members, the value to go on from is its last one. -/
theorem anchorOf_behind_run {items : List Item} {r : Shorthand} (hne : r.members ≠ []) :
    (Division.of (items ++ [.run r])).pending = [] ∧ ∃ a, lastField (items ++ [.run r]) = some a ∧
      anchorOf none (Division.of (items ++ [.run r])).segments = some a := by
  obtain ⟨fs, a, hfs⟩ := (List.eq_nil_or_concat r.members).resolve_left hne
  rw [List.concat_eq_append] at hfs
  rw [Division.of_concat]
  refine ⟨rfl, a, ?_, ?_⟩
  · simp [lastField, Item.fields, hfs]
  · rw [Division.push, anchorOf, ← List.append_assoc, List.foldl_concat]
    change r.ownEntries.getLast?.map (·.field) = some a
    rw [← List.getLast?_map, Shorthand.map_field_ownEntries, hfs, List.getLast?_concat]

/-- What stands behind a run that is no plain value belongs to another run. -/
theorem exists_of_head?_entries {post : List Item} (hruns : ∀ r, .run r ∈ post → r.members ≠ [])
    {e : ListEntry} (he : e ∈ (post.flatMap Item.entries).head?) :
    (∃ f, e = .new f ∧ f ∈ post.head?.bind Item.plain?) ∨
      ∃ r, .run r ∈ post ∧ e.runId? = some r.id := by
  cases post with
  | nil => cases he
  | cons i post =>
    cases i with
    | field f => exact .inl ⟨f, (Option.some.inj he).symm, rfl⟩
    | run r =>
      refine .inr ⟨r, List.mem_cons_self, ?_⟩
      have hne : r.ownEntries ≠ [] := by
        intro hnil
        have hmembers := r.map_field_ownEntries
        rw [hnil] at hmembers
        exact hruns r List.mem_cons_self hmembers.symm
      obtain ⟨e', es, hown⟩ := List.exists_cons_of_ne_nil hne
      have he' : e' = e := by
        simpa [Item.entries, hown] using he
      exact Shorthand.runId?_of_mem_ownEntries (hown ▸ he' ▸ List.mem_cons_self)

/-- The value that a chained run goes on from is that which the run before it has claimed. -/
theorem Made.exists_anchor (h : l.Made) (hruns : l.RunsStandAlone t) {pre post : List Item}
    {s : Shorthand} (hitems : l.items = pre ++ .run s :: post) (hchained : s.chained = true) :
    (Division.of pre).pending = [] ∧ ∃ a, lastField pre = some a ∧
      anchorOf none (Division.of pre).segments = some a := by
  obtain ⟨before, r, rfl⟩ := (h.made pre s post hitems).behind_run hchained
  refine anchorOf_behind_run
    (hruns.standsAlone (hitems.trans (List.append_assoc before _ _))).members_ne_nil

/-- A run that stands alone wins back its own values, and no other. -/
theorem Made.winsBack (h : l.Made) (hruns : l.RunsStandAlone t) {pre post : List Item}
    {s : Shorthand} (hitems : l.items = pre ++ .run s :: post) :
    WinsBack t s (anchorOf none (Division.of pre).segments)
      (Division.of pre).pending (post.flatMap Item.entries) := by
  have hmade := h.made pre s post hitems
  have halone := hruns.standsAlone hitems
  have hmember (r : Shorthand) (hr : .run r ∈ post) : r.members ≠ [] ∧ s.id < r.id := by
    obtain ⟨mid, rest, rfl⟩ := List.append_of_mem hr
    have hr' : l.items = (pre ++ .run s :: mid) ++ .run r :: rest := by simp [hitems]
    exact ⟨(hruns.standsAlone hr').members_ne_nil, h.fresh _ r rest hr' s (by simp)⟩
  refine ⟨fun f hf ↦ hmade.canRoot f (List.mem_of_mem_head? hf), halone.enough, fun hchained ↦ ?_,
    fun _ _ _ _ hmembers ↦ halone.fits hmade hmembers, fun hchained f hf ↦ ?_,
    fun e he hfree g hg ↦ ?_⟩
  · obtain ⟨hpending, a, hlast, hanchor⟩ := h.exists_anchor hruns hitems hchained
    refine ⟨hpending, a, hanchor, fun f hf ↦ ?_⟩
    obtain ⟨rest, hmembers⟩ := List.head?_eq_some_iff.mp hf
    exact halone.continuesFrom hmade hchained hlast hmembers
  · exact halone.before hchained f (getLast?_pending hf)
  · obtain ⟨f, rfl, hhead⟩ | ⟨r, hr, hid⟩ :=
      exists_of_head?_entries (fun r hr ↦ (hmember r hr).1) he
    · exact halone.behind f hhead g hg
    · have hlt := (hmember r hr).2
      simp only [ListEntry.isFreeFor, hid, beq_iff_eq] at hfree
      omega

/-- A list that was read, in which the runs stand alone, has the runs that reconciliation would
choose. -/
theorem Made.ownRuns (h : l.Made) (hruns : l.RunsStandAlone t) : OwnRuns t l.items where
  plain f hf := (h.plain f hf).isJump
  written s hs := by
    obtain ⟨pre, post, hitems⟩ := List.append_of_mem hs
    exact (h.made pre s post hitems).written
  winsBack pre s post hitems := h.winsBack hruns hitems
  anchor_eq pre s post hitems := by
    rw [(h.made pre s post hitems).anchor_eq]
    split_ifs with hchained
    · obtain ⟨-, a, hlast, hanchor⟩ := h.exists_anchor hruns hitems hchained
      rw [hlast, hanchor]
    · rfl

/-! ## Writing a list that was built anew -/

/-- The texts of the items do not touch. -/
def SetApart (t : Tolerance) (l : FieldList) : Prop := ∀ n < l.items.length, ∀ i ∈ l.items[n]?,
  startsBlank (i.render t).text = true ∨
    endsBlank (String.join ((l.items.take n).map fun j ↦ (j.render t).text)) = true

instance : Decidable (l.SetApart t) := by
  unfold SetApart
  infer_instance

/-- No gap goes between texts that do not touch. -/
theorem foldl_addPart_spaced {parts : List Rendered} {out : Rendered}
    (h : ∀ pre p post, parts = pre ++ p :: post → startsBlank p.text = true ∨
      endsBlank (out.text ++ String.join (pre.map Rendered.text)) = true) :
    parts.foldl (addPart true) out = parts.foldl (addPart false) out := by
  induction parts generalizing out with
  | nil => rfl
  | cons p parts ih =>
    have hfirst : addPart true out p = addPart false out p := by
      have hp := h [] p parts rfl
      rw [List.map_nil, String.join_nil, String.append_empty] at hp
      unfold addPart
      rw [if_neg, if_neg (by simp)]
      rcases hp with hp | hp <;> simp [hp]
    rw [List.foldl_cons, List.foldl_cons, hfirst]
    refine ih fun pre q post hparts ↦ ?_
    have hq := h (p :: pre) q post (by rw [hparts]; rfl)
    rw [List.map_cons, String.join_cons, ← String.append_assoc] at hq
    exact hq

/-- Being rebuilt makes no difference to the text of items that are set apart. -/
theorem render_rebuilt {t : Tolerance} (hapart : l.SetApart t) (hrebuilt : l.rebuilt = false) :
    FieldList.render t { l with rebuilt := true } = l.render t := by
  unfold render
  rw [hrebuilt]
  refine congrArg (· ++ Rendered.ofText (layoutText l.tail))
    (foldl_addPart_spaced fun parts p later hparts ↦ ?_)
  obtain ⟨pre, rest, hitems, rfl, hrest⟩ := List.map_eq_append_iff.mp hparts
  obtain ⟨i, post, rfl, rfl, -⟩ := List.map_eq_cons_iff.mp hrest
  rw [List.map_map, show Rendered.empty.text = "" from rfl, String.empty_append]
  change l.items = pre ++ i :: post at hitems
  simpa [hitems, Function.comp_def] using hapart pre.length (by simp [hitems]) i (by simp [hitems])

end FieldList

namespace Production

/-- A list that is read at some place of a record. -/
def Builds (l : FieldList) : Prop := ∃ (g : Grammar) (preferred : ValueKind) (c c' : Cursor),
  c.IsLexed ∧ (values g preferred).run c = (.ok l, c')

/-- A list that is read and built anew from its own values has the same items and the same text, if
its runs stand alone and its items do not touch. -/
theorem Builds.text_reconcile {l : FieldList} (h : Builds l) {t u : Tolerance}
    (hruns : l.RunsStandAlone t) (hapart : l.SetApart u) :
    (l.reconcile t l.entries).items = l.items ∧
      ((l.reconcile t l.entries).render u).text = (l.render u).text := by
  obtain ⟨g, preferred, c, c', hlex, hrun⟩ := h
  obtain ⟨-, ts, -, hmade, htrailing⟩ := Reads.values_made g preferred hlex l c' hrun
  obtain ⟨-, us, -, hread, -⟩ := Reads.values g preferred hlex l c' hrun
  by_cases hne : l.items = []
  · have hnone : l.reconcile t l.entries = l := by
      rw [FieldList.reconcile, if_pos (by rw [l.entries_eq, hne]; rfl), ← hne]
    rw [hnone]
    exact ⟨rfl, rfl⟩
  · rw [FieldList.reconcile_entries hne (hmade.ownRuns hruns) htrailing]
    exact ⟨rfl, by rw [FieldList.render_rebuilt hapart hread.not_rebuilt]⟩

/-- What can be computed from a list that a text is read as holds of that list. -/
theorem exists_builds (mode : LexMode) (text : String) (g : Grammar) (preferred : ValueKind)
    {p : FieldList → Bool} (h : (match tokenize mode text with
      | .ok ts => match ((values g preferred).run (.of (.of ts))).1 with
        | .ok l => p l
        | .error _ => false
      | .error _ => false) = true) : ∃ l, Builds l ∧ p l = true := by
  split at h
  · next ts hts =>
    have hlex : (Cursor.of (.of ts)).IsLexed := Lexer.spells_of_tokensFrom hts
    rcases hrun : (values g preferred).run (.of (.of ts)) with ⟨r, c'⟩
    rw [hrun] at h
    cases r with
    | ok l => exact ⟨l, ⟨g, preferred, _, c', hlex, hrun⟩, h⟩
    | error e => cases h
  · cases h

/-- Runs of all kinds that stand alone. -/
theorem text_reconcile_of_runs : ∃ l, Builds l ∧ l.RunsStandAlone .standard ∧ l.SetApart .standard ∧
    (l.reconcile .standard l.entries).items = l.items ∧
    ((l.reconcile .standard l.entries).render .standard).text = "2 2r 2j 1 3i 5 7 2m 2m 4" := by
  obtain ⟨l, hl, hp⟩ := exists_builds .data "2 2r 2j 1 3i 5 7 2m 2m 4" .data .real
    (p := fun l ↦ decide (l.RunsStandAlone .standard ∧ l.SetApart .standard ∧
      (l.render .standard).text = "2 2r 2j 1 3i 5 7 2m 2m 4")) (by decide +kernel)
  obtain ⟨hruns, hapart, htext⟩ := of_decide_eq_true hp
  obtain ⟨hitems, hsame⟩ := hl.text_reconcile hruns hapart
  exact ⟨l, hl, hruns, hapart, hitems, hsame.trans htext⟩

/-- A run takes an equal value in front of it. -/
theorem not_text_reconcile : ¬ ∀ l, Builds l →
    ((l.reconcile .standard l.entries).render .standard).text = (l.render .standard).text := by
  intro h
  obtain ⟨l, hl, hp⟩ := exists_builds .data "2 2 1r" .data .real
    (p := fun l ↦ decide (((l.reconcile .standard l.entries).render .standard).text ≠
    (l.render .standard).text))
    (by decide +kernel)
  exact of_decide_eq_true hp (h l hl)

end Production

end TransportDeck
