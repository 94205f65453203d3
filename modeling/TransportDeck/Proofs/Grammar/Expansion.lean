import TransportDeck.Proofs.Grammar.Progress
import TransportDeck.Proofs.Grammar.WrittenItems

/-!
# What lists of numbers stand for

The reader of a list keeps more than an expansion needs: which runs own the value in front of them
and which go on from another run.  The values that it reads are still those of the expansion, and
where the expansion is stuck, the list is refused.
-/

namespace TransportDeck

open WrittenItem

/-! ## Lists -/

namespace FieldList

/-- A list of real numbers and words, as it is read, and runs behind them. -/
def IsReal (l : FieldList) : Prop := ∀ f, .field f ∈ l.items → f.IsPlain ∧ f.kind ≠ .int

variable {l : FieldList}

/-- The values of a list are those of its items. -/
theorem values_eq (l : FieldList) :
    l.values = l.items.flatMap fun i ↦ i.fields.map Field.signed := by
  rw [values, fields, List.map_flatMap]

/-- A run adds the values of its members. -/
theorem values_pushRun (l : FieldList) (s : Shorthand) :
    (l.pushRun s).values = l.values ++ s.values := by
  simp [values_eq, pushRun, Item.fields, Shorthand.values]

/-- A field adds its own value. -/
theorem values_pushField (l : FieldList) (f : Field) :
    (l.pushField f).values = l.values ++ [f.signed] := by
  simp [values_eq, pushField, Item.fields]

theorem values_detachTail (l : FieldList) : l.detachTail.values = l.values := by
  have hvalues (i : Item) :
      (i.setTrailing none).fields.map Field.signed = i.fields.map Field.signed := by
    cases i with
    | field f => rfl
    | run s => exact s.values_setTrailing none
  unfold detachTail
  split
  · exact values_mapLastItem hvalues l
  · rfl

/-- A run adds no integer to a list of real numbers and words. -/
theorem IsReal.pushRun (h : l.IsReal) (s : Shorthand) : (l.pushRun s).IsReal := by
  intro f hf
  obtain hf | hf := List.mem_append.mp hf
  · exact h f hf
  · cases List.mem_singleton.mp hf

/-- A plain field that is no integer may stand behind real numbers and words. -/
theorem IsReal.pushField (h : l.IsReal) {f : Field} (hf : f.IsPlain) (hkind : f.kind ≠ .int) :
    (l.pushField f).IsReal := by
  intro g hg
  obtain hg | hg := List.mem_append.mp hg
  · exact h g hg
  · obtain rfl := Item.field.inj (List.mem_singleton.mp hg)
    exact ⟨hf, hkind⟩

/-- What a lead leaves of a list, and what it takes: together they are the list, and the lead is its
last value. -/
structure Leads (l : FieldList) (lead : Lead) (l' : FieldList) : Prop where
  value_eq : lead.value = l.values.getLast?.join
  values_eq : l'.values ++ lead.members.map Field.signed = l.values
  kind_eq : ∀ x, lead.value.bind Value.toReal? = some x → lead.kind = .real
  isReal : l'.IsReal

/-- A chained lead has the last value of the list, and takes nothing from it. -/
theorem leads_chained (h : l.IsReal) : l.Leads (.chained (l.last?.bind Field.signed)) l where
  value_eq := by
    change l.fields.getLast?.bind Field.signed = _
    rw [values, List.getLast?_map]
    cases l.fields.getLast? <;> rfl
  values_eq := List.append_nil _
  kind_eq _ _ := rfl
  isReal := h

/-- A lead that is taken from the list has its last value, and leaves the others. -/
theorem leads_owned (h : l.IsReal) {f : Field} {rest : FieldList}
    (hpop : l.popField? = some (f, rest)) : l.Leads (.owned f) rest := by
  unfold popField? at hpop
  split at hpop
  · next g hlast =>
    obtain ⟨rfl, rfl⟩ := Prod.mk.inj (Option.some.inj hpop)
    obtain ⟨items, hitems⟩ := List.getLast?_eq_some_iff.mp hlast
    obtain ⟨hplain, hkind⟩ := h g (List.mem_of_getLast? hlast)
    obtain ⟨v, hv, hvkind, -⟩ := hplain.exists_signed
    have hvalues : l.values = items.flatMap (fun i ↦ i.fields.map Field.signed) ++ [g.signed] := by
      rw [FieldList.values_eq, hitems]
      simp [Item.fields]
    refine ⟨?_, ?_, fun x hx ↦ ?_, fun f hf ↦ h f (List.mem_of_mem_dropLast hf)⟩
    · rw [hvalues, List.getLast?_concat]
      rfl
    · rw [hvalues, FieldList.values_eq, hitems, List.dropLast_concat]
      rfl
    · have hnumber : v.toReal? = some x := by simpa [Lead.value, hv] using hx
      cases v with
      | int n => exact absurd hvkind.symm hkind
      | real y => exact hvkind.symm
      | text s => cases hnumber
  · cases hpop

/-- A list without a value to take and without a run to go on from is empty. -/
theorem values_of_popField?_eq_none (hends : ¬l.endsWithRun = true) (hpop : l.popField? = none) :
    l.values = [] := by
  unfold popField? at hpop
  unfold endsWithRun at hends
  cases hlast : l.items.getLast? with
  | none => rw [FieldList.values_eq, List.getLast?_eq_none_iff.mp hlast]; rfl
  | some i =>
    rw [hlast] at hpop hends
    cases i with
    | field f => cases hpop
    | run s => exact absurd rfl hends

end FieldList

/-! ## Following an expansion -/

namespace Production

/-- A parameter is told by the tokens that are left. -/
theorem parameterAhead_eq (g : Grammar) (s : TokenStream) :
    parameterAhead g s = parameterInFront g s.rest := by
  have hrest (s : TokenStream) : s.advance.rest = s.rest.tail := s.rest_advance
  have hahead (s : TokenStream) : equalsAhead s =
      (s.rest.dropWhile isBeforeEquals).head?.any (·.kind == .equals) := by
    rw [equalsAhead, TokenStream.current?_eq_head?, TokenStream.rest_takeWhile_eq]
  unfold parameterAhead parameterInFront
  rw [s.current?_eq_head?]
  cases hs : s.rest with
  | nil => rfl
  | cons t us =>
    by_cases ht : isMark t = true
    · simp only [List.head?_cons, ht, if_true, Option.any_some, List.tail_cons,
        TokenStream.current?_eq_head?, hahead, hrest, hs]
      cases us <;> rfl
    · simp only [List.head?_cons, ht, if_false, Option.any_some, TokenStream.current?_eq_head?,
        hahead, hrest, hs, Bool.false_eq_true, List.tail_cons]

/-- No list takes layout for a word. -/
theorem isLayout_of_isItem {g : Grammar} {t : Token} (h : isItem g t = true) :
    t.isLayout = false := by
  rw [Bool.eq_false_iff]
  intro hlayout
  have hnone : isItemMark t.kind = false ∧ t.kind.isWord = false ∧ isRangeMark t.kind = false := by
    change t.kind.isLayout = true at hlayout
    revert hlayout
    cases t.kind <;> first | decide | rintro ⟨⟩
  simp [isItem, hnone] at h

/-- Whether a parameter starts is told from what is left. -/
theorem run_startsParameter_eq (g : Grammar) {c : Cursor} :
    (startsParameter g).run c = (.ok (parameterInFront g c.rest), c) :=
  congrArg (fun b ↦ (Except.ok b, c)) (parameterAhead_eq g c.stream)

variable {α β γ δ : Type}

/-- A run from `c` follows a computation that may give nothing: then the run fails, and otherwise
what it gives and the tokens that it leaves are related to the result. -/
def Follows (p : Production α) (c : Cursor) (o : Option β) (Q : α → List Token → β → Prop) : Prop :=
  match o with
  | none => ∃ e c', p.run c = (.error e, c')
  | some b => ∃ a c', p.run c = (.ok a, c') ∧ Q a c'.rest b

namespace Follows

variable {p : Production α} {f : α → Production γ} {c : Cursor} {o : Option β} {k : β → Option δ}
  {Q : α → List Token → β → Prop} {R : γ → List Token → δ → Prop} {t : Token} {us : List Token}

theorem pure {a : α} {b : β} (h : Q a c.rest b) : Follows (pure a) c (some b) Q := ⟨a, c, rfl, h⟩

theorem throw {e : SyntaxError} : Follows (throw e : Production α) c none Q := ⟨e, c, rfl⟩

theorem unexpected {expected : String} : Follows (unexpected expected : Production α) c none Q :=
  ⟨_, c, rfl⟩

/-- A run follows what its two halves follow, one behind the other. -/
theorem bind (hp : Follows p c o Q)
    (hf : ∀ a c' b, o = some b → Q a c'.rest b → Follows (f a) c' (k b) R) :
    Follows (p >>= f) c (o.bind k) R := by
  cases o with
  | none =>
    obtain ⟨e, c', herror⟩ := hp
    exact ⟨e, c', run_bind_of_error herror⟩
  | some b =>
    obtain ⟨a, c', hok, hQ⟩ := hp
    have hrest := hf a c' b rfl hQ
    unfold Follows at hrest ⊢
    rw [run_bind_of_ok hok]
    exact hrest

theorem map {h : α → γ} {R : γ → List Token → β → Prop} (hp : Follows p c o Q)
    (hf : ∀ a us b, Q a us b → R (h a) us b) : Follows (do return h (← p)) c o R := by
  have hbind := hp.bind (f := fun a ↦ Pure.pure (h a)) (k := some) (R := R) fun a c' b _ hQ ↦
    pure (hf a _ b hQ)
  rwa [Option.bind_fun_some] at hbind

/-- A step that does not fail. -/
theorem step {o : Option δ} {a : α} {c' : Cursor} (hp : p.run c = (.ok a, c'))
    (hf : Follows (f a) c' o R) : Follows (p >>= f) c o R := by
  unfold Follows at hf ⊢
  rw [run_bind_of_ok hp]
  exact hf

theorem current {o : Option δ} {f : Option Token → Production γ}
    (h : Follows (f c.rest.head?) c o R) : Follows (current? >>= f) c o R := by
  rw [← c.current?_eq_head?] at h
  exact h

theorem advance {o : Option δ} {f : Unit → Production γ} (hc : c.rest = t :: us)
    (hf : ∀ c' : Cursor, c'.rest = us → Follows (f ()) c' o R) : Follows (advance >>= f) c o R := by
  refine step rfl (hf { c with stream := c.stream.advance } ?_)
  change c.stream.advance.rest = us
  rw [c.stream.rest_advance]
  exact congrArg List.tail hc

/-- Layout is passed over. -/
theorem layout {o : Option δ} {f : Option Layout → Production γ}
    (hf : ∀ l (c' : Cursor), c'.rest = behindLayout c.rest → Follows (f l) c' o R) :
    Follows (layout >>= f) c o R :=
  step rfl (hf _ { c with stream := (c.stream.takeWhile Token.isLayout).2 }
    (c.stream.rest_takeWhile_eq _))

/-! ### Values -/

/-- A field that says this value. -/
structure Says (f : Field) (v : Value) : Prop where
  isPlain : f.IsPlain
  signed_eq : f.signed = some v
  kind_eq : f.kind = v.kind

/-- A field that is read from a text says the value that the text is read as. -/
theorem says_of_parse? {kind : ValueKind} {v : Value} {text : String} {l : Option Layout}
    {f : Field} (hparse : Field.parse? text kind none = some f)
    (hv : Field.readValue? kind text = some v) : Says (f.setLayout l) v := by
  obtain ⟨u, hu, rfl⟩ := Option.map_eq_some_iff.mp hparse
  obtain rfl := Option.some.inj (hv.symm.trans hu)
  have hplain := (Field.isPlain_of_parse? hparse).setLayout l
  obtain ⟨w, hw, hkind, -⟩ := hplain.exists_signed
  obtain rfl := Option.some.inj (hw.symm.trans (rfl : _ = some v))
  exact ⟨hplain, rfl, hkind.symm⟩

/-- A number follows the number at the start of what is left. -/
theorem number (expected : String) : Follows (value .real expected) c (number? c.rest) fun f vs r ↦
    vs = r.2 ∧ Says f (.real r.1) := by
  refine current ?_
  cases hc : c.rest with
  | nil => exact unexpected
  | cons t us =>
    by_cases hkind : t.kind.isNumber = true
    · have haccepts : (some t).filter (accepts .real) = some t := by simp [accepts, hkind]
      have hnumber : number? (t :: us) = (Number.readReal? t.text).map fun x ↦
          (x, behindLayout us) := if_pos hkind
      rw [List.head?_cons, haccepts, hnumber]
      cases hread : Number.readReal? t.text with
      | none =>
        have hparse : Field.parse? t.text .real none = none := by
          rw [Field.parse?, Field.readValue?, hread]; rfl
        dsimp only
        rw [hparse]
        exact unexpected
      | some x =>
        have hvalue : Field.readValue? .real t.text = some (.real x) := by
          rw [Field.readValue?, hread]; rfl
        obtain ⟨f, hparse⟩ : ∃ f, Field.parse? t.text .real none = some f := by
          rw [Field.parse?, hvalue]
          exact ⟨_, rfl⟩
        dsimp only
        rw [hparse]
        exact advance hc fun c' hc' ↦ layout fun l c'' hc'' ↦
          .pure ⟨hc' ▸ hc'', says_of_parse? hparse hvalue⟩
    · have haccepts : (some t).filter (accepts .real) = none := by simp [accepts, hkind]
      have hnone : number? (t :: us) = none := if_neg hkind
      rw [List.head?_cons, haccepts, hnone]
      exact unexpected

/-- A word follows any solid token. -/
theorem word (expected : String) (hc : c.rest = t :: us) (hsolid : t.isLayout = false) :
    Follows (value .text expected) c (some (behindLayout us)) fun f vs ws ↦ vs = ws ∧
      Says f (.text t.text) := by
  refine current ?_
  rw [hc, List.head?_cons, Option.filter_some, accepts, hsolid]
  exact advance hc fun c' hc' ↦ layout fun l c'' hc'' ↦
    .pure ⟨hc' ▸ hc'', says_of_parse? (show Field.parse? t.text .text none = some _ from rfl) rfl⟩

/-! ### Runs -/

variable {g : Grammar} {l l' : FieldList} {lead : Lead} {kind : ShorthandKind} {span : Span}

/-- The list that is read has the values of the expansion, and the same tokens are left. -/
def Expanded (l : FieldList) (us : List Token) (r : List (Option Value) × List Token) : Prop :=
  l.IsReal ∧ l.values = r.1 ∧ us = r.2

/-- What leads a run is the last value of the list, and without values there is no lead. -/
theorem leadOf {r : Option δ} {f : Lead × FieldList → Production γ} (h : l.IsReal)
    (hempty : l.values = [] → r = none)
    (hf : ∀ lead l', l.Leads lead l' → Follows (f (lead, l')) c r R) :
    Follows (Production.leadOf kind span l >>= f) c r R := by
  unfold Production.leadOf
  split_ifs with hends
  · exact step rfl (hf _ l (FieldList.leads_chained h))
  · split
    · next field rest hpop => exact step rfl (hf _ rest (FieldList.leads_owned h hpop))
    · next hpop =>
      rw [hempty (FieldList.values_of_popField?_eq_none hends hpop)]
      exact ⟨_, c, run_bind_of_error rfl⟩

/-- A run adds its values, or is refused. -/
theorem pushRun (h : l.IsReal) (e : Except ShorthandError Shorthand) :
    Follows (do return l.pushRun (← orMalformed span e)) c
      ((Shorthand.values? e).map fun ws ↦ (l.values ++ ws, c.rest)) Expanded := by
  cases e with
  | error e => exact ⟨_, c, rfl⟩
  | ok s => exact ⟨_, c, rfl, h.pushRun s, l.values_pushRun s, rfl⟩

/-- A run with a lead adds its values behind those of the list that the lead was taken from. -/
theorem pushRun_leads (h : l.Leads lead l') {e : Except ShorthandError Shorthand}
    {ws : Option (List (Option Value))}
    (he : Shorthand.values? e = ws.map (lead.members.map Field.signed ++ ·)) :
    Follows (do return l'.pushRun (← orMalformed span e)) c (ws.map fun ws ↦
      (l.values ++ ws, c.rest)) Expanded := by
  have hpush : Follows (do return l'.pushRun (← orMalformed span e)) c _ Expanded :=
    pushRun h.isReal e
  rw [he, Option.map_map] at hpush
  simpa only [Function.comp_def, ← List.append_assoc, h.values_eq] using hpush

/-- The last bound of an interpolation is read behind its token. -/
theorem interpolation (kind : ShorthandKind) (item : Nat → Float → WrittenItem)
    (hlead : l.Leads lead l') (hkind : kind ≠ .multiply) {id : Nat} {token : String}
    {mid : Option Layout}
    (hitem : ∀ n b before, (item n b).contribution? before =
      (before.bind Value.toReal?).bind fun x ↦
      if kind = .logarithmic && (x <= 0.0 || b <= 0.0) then none
      else some (pointsTo b n fun i ↦
        Shorthand.offScale kind
          (evenPoint (Shorthand.onScale kind x) (Shorthand.onScale kind b) n i))) :
    Follows (do
        let last ← value .real "interpolation bound"
        return l'.pushRun (← orMalformed span (Shorthand.interpolate id kind lead token mid last)))
          c
      (((count? token).bind fun n ↦ (number? c.rest).map fun r ↦
        (item n r.1, r.2)).bind (expand? l.values))
      Expanded := by
  have horder : (((count? token).bind fun n ↦ (number? c.rest).map fun r ↦ (item n r.1, r.2)).bind
      (expand? l.values)) = (number? c.rest).bind fun r ↦ (count? token).bind fun n ↦
        expand? l.values (item n r.1, r.2) := by
    rw [Option.bind_comm]
    simp only [Option.bind_assoc, Option.bind_map, Function.comp_def]
  rw [horder]
  refine (number "interpolation bound").bind ?_
  rintro last c' ⟨b, us⟩ - ⟨hus, hlast⟩
  have hpush : Follows (do return l'.pushRun (← orMalformed span
      (Shorthand.interpolate id kind lead token mid last))) c' _ Expanded :=
    pushRun_leads hlead (Shorthand.values_interpolate hkind hlast.signed_eq hlead.kind_eq)
  simp only [← hitem, hlead.value_eq, hus, Option.map_bind, Function.comp_def] at hpush
  exact hpush

/-- A run of shorthands is expanded behind the values that were read. -/
theorem shorthand (h : l.IsReal) : Follows (shorthand g kind t l) c
    (if g.allows .shorthands then
      (ofShorthand? kind t.text (behindLayout c.rest)).bind (expand? l.values) else none)
    Expanded := by
  unfold Production.shorthand
  cases g.allows .shorthands with
  | false => exact throw
  | true =>
    have hid : l.takeId.IsReal := h
    have hvalues : l.takeId.values = l.values := rfl
    simp only [Bool.not_true, Bool.false_eq_true, if_false, if_true]
    have hempty (hkind : kind ≠ .jump) (hnil : l.takeId.values = []) :
        (ofShorthand? kind t.text (behindLayout c.rest)).bind (expand? l.values) = none :=
      expand?_eq_none_of_no_value hkind (by rw [← hvalues, hnil]; rfl)
    cases kind with
    | jump =>
      refine layout fun ls c' hc' ↦ ?_
      have hpush : Follows (do return l.takeId.pushRun (← orMalformed t.span
        (Shorthand.jump l.nextId t.text ls))) c' _ Expanded := pushRun hid _
      rw [Shorthand.values_jump l.values.getLast?.join, hvalues, hc'] at hpush
      simpa only [ofShorthand?, expand?, Option.map_bind, Option.bind_map,
        Function.comp_def] using hpush
    | copies =>
      refine leadOf hid (hempty (by decide)) fun lead l' hlead ↦ layout fun ls c' hc' ↦ ?_
      have hpush : Follows (do return l'.pushRun (← orMalformed t.span
        (Shorthand.copies l.nextId lead t.text ls))) c' _ Expanded :=
        pushRun_leads hlead Shorthand.values_copies
      rw [hvalues, hc', hlead.value_eq, hvalues] at hpush
      simpa only [ofShorthand?, expand?, Option.map_bind, Option.bind_map,
        Function.comp_def] using hpush
    | multiply =>
      refine leadOf hid (hempty (by decide)) fun lead l' hlead ↦ layout fun ls c' hc' ↦ ?_
      have hpush : Follows (do return l'.pushRun (← orMalformed t.span
        (Shorthand.multiply l.nextId lead t.text ls))) c' _ Expanded :=
        pushRun_leads hlead (Shorthand.values_multiply hlead.kind_eq)
      rw [hvalues, hc', hlead.value_eq, hvalues] at hpush
      simpa only [ofShorthand?, expand?, Option.map_bind, Option.bind_map,
        Function.comp_def] using hpush
    | linear =>
      refine leadOf hid (hempty (by decide)) fun lead l' hlead ↦ layout fun ls c' hc' ↦ ?_
      rw [← hc']
      refine interpolation .linear linear hlead (by decide) fun n b before ↦ ?_
      cases h : before.bind Value.toReal? <;> simp only [contribution?, h] <;> rfl
    | logarithmic =>
      refine leadOf hid (hempty (by decide)) fun lead l' hlead ↦ layout fun ls c' hc' ↦ ?_
      rw [← hc']
      refine interpolation .logarithmic logarithmic hlead (by decide) fun n b before ↦ ?_
      cases h : before.bind Value.toReal? <;> simp only [contribution?, h] <;> rfl

/-! ### Items -/

/-- A field adds the value that it says. -/
theorem pushField (h : l.IsReal) {f : Field} {v : Value} (hf : Says f v) (hkind : v.kind ≠ .int) :
    Expanded (l.pushField f) us (l.values ++ [some v], us) :=
  ⟨h.pushField hf.isPlain (hf.kind_eq ▸ hkind), by rw [l.values_pushField, hf.signed_eq], rfl⟩

/-- An item is expanded behind the values that were read. -/
theorem item? (h : l.IsReal) (hfront : inFront g c.rest = true) :
    Follows (Production.item? g .real l) c ((front? g c.rest).bind (expand? l.values)) fun o us r ↦
      ∃ l', o = some l' ∧ Expanded l' us r := by
  obtain ⟨t, us, hc⟩ : ∃ t us, c.rest = t :: us := by
    cases hc : c.rest with
    | nil => rw [hc] at hfront; cases hfront
    | cons t us => exact ⟨t, us, rfl⟩
  have isNumber (hread : front? g c.rest = (number? c.rest).map fun r ↦ (.value (.real r.1), r.2)) :
      Follows (do return some (l.pushField (← value (numberKind .real t.text) "number"))) c
        ((front? g c.rest).bind (expand? l.values)) fun o us r ↦ ∃ l', o = some l' ∧
        Expanded l' us r := by
    rw [hread, Option.bind_map]
    refine (number "number").bind ?_
    rintro f c' ⟨x, vs⟩ - ⟨rfl, hf⟩
    exact .pure ⟨_, rfl, pushField h hf (by rintro ⟨⟩)⟩
  refine current ?_
  rw [show c.rest.head? = some t by rw [hc]; rfl]
  dsimp only
  split
  · next hkind => exact isNumber (by simp only [hc, front?, hkind])
  · next hkind => exact isNumber (by simp only [hc, front?, hkind])
  · next kind hkind =>
    have hread : front? g c.rest =
        if g.allows .shorthands then ofShorthand? kind t.text (behindLayout us) else none := by
      simp only [hc, front?, hkind]
    refine advance hc fun c' hc' ↦ ?_
    have hrun : Follows (Production.shorthand g kind t l) c' _ Expanded := shorthand h
    rw [hc'] at hrun
    have hexpand : (front? g c.rest).bind (expand? l.values) = if g.allows .shorthands then
        (ofShorthand? kind t.text (behindLayout us)).bind (expand? l.values) else none := by
      rw [hread]
      split_ifs <;> rfl
    rw [hexpand]
    exact map hrun fun l' _ _ hl' ↦ ⟨l', rfl, hl'⟩
  · next hnumber hzero hshorthand =>
    have hread : front? g c.rest = some (.value (.text t.text), behindLayout us) := by
      rw [hc, front?]
      split <;> simp_all
    have hword : parameterInFront g c.rest = false ∧ isItem g t = true := by
      rw [hc, inFront] at hfront
      split at hfront <;> simp_all
    have hsolid := isLayout_of_isItem hword.2
    rw [hread]
    refine step (run_startsParameter_eq g) ?_
    simp only [hword.1, hword.2, Bool.false_eq_true, if_false, if_true]
    obtain ⟨f, c', hrun, hrest, hf⟩ := word "data item" hc hsolid
    exact step hrun (.pure ⟨_, rfl, hrest ▸ pushField h hf (by rintro ⟨⟩)⟩)

end Follows

/-- Where a list does not go on, nothing is read. -/
theorem run_item?_of_not_inFront {g : Grammar} {l : FieldList} {c : Cursor}
    (h : inFront g c.rest = false) : (item? g .real l).run c = (.ok none, c) := by
  have hcurrent : current?.run c = (.ok c.rest.head?, c) :=
    congrArg (fun t ↦ (Except.ok t, c)) c.current?_eq_head?
  rw [item?, run_bind_of_ok hcurrent]
  cases hc : c.rest with
  | nil => rfl
  | cons t us =>
    rw [hc, inFront] at h
    rw [List.head?_cons]
    dsimp only
    split
    · next hkind => simp [hkind] at h
    · next hkind => simp [hkind] at h
    · next hkind => simp [hkind] at h
    · next hnumber hzero hshorthand =>
      have hstop : (!parameterInFront g (t :: us) && isItem g t) = false := by
        split at h <;> first | exact h | simp_all
      rw [run_bind_of_ok (run_startsParameter_eq g), hc]
      split_ifs with hparameter hitem
      · rfl
      · simp [hparameter, hitem] at hstop
      · rfl

/-- The rounds of a list that has been read so far expand what is left until they come to an end,
which is a failure if the list would go on there.  There are rounds enough, since each reads a
token. -/
theorem rounds_expand {g : Grammar} (n : Nat) {l : FieldList} {c : Cursor} (hl : l.IsReal)
    (hn : c.rest.length < n) :
    ∃ vs us, Relation.ReflTransGen (ExpansionStep g) (l.values, c.rest) (vs, us) ∧
      (∀ s, ¬ExpansionStep g (vs, us) s) ∧ match (rounds (item? g .real) n l).run c with
        | (.ok l', c') => inFront g us = false ∧ l'.values = vs ∧ c'.rest = us
        | (.error _, _) => inFront g us = true := by
  induction n generalizing l c with
  | zero => exact absurd hn (Nat.not_lt_zero _)
  | succ n ih =>
    cases hfront : inFront g c.rest with
    | false =>
      refine ⟨l.values, c.rest, .refl, fun s hs ↦ ?_, ?_⟩
      · rw [(expansionStep_iff.mp hs).1] at hfront
        cases hfront
      · rw [rounds, run_bind_of_ok (run_item?_of_not_inFront hfront)]
        exact ⟨hfront, rfl, rfl⟩
    | true =>
      have hitem := Follows.item? (g := g) hl hfront
      cases hexpand : (front? g c.rest).bind (expand? l.values) with
      | none =>
        rw [hexpand] at hitem
        obtain ⟨e, c', hrun⟩ := hitem
        refine ⟨l.values, c.rest, .refl, fun s hs ↦ ?_, ?_⟩
        · rw [(expansionStep_iff.mp hs).2] at hexpand
          cases hexpand
        · rw [rounds, run_bind_of_error hrun]
          exact hfront
      | some r =>
        rw [hexpand] at hitem
        obtain ⟨_, c', hrun, l', rfl, hl', hvalues, hrest⟩ := hitem
        have hlength : c'.rest.length < n := by
          have hshorter := length_of_expand hexpand
          rw [hrest]
          omega
        obtain ⟨vs, us, hsteps, hend⟩ := ih hl' hlength
        have hstep : ExpansionStep g (l.values, c.rest) (l'.values, c'.rest) :=
          expansionStep_iff.mpr ⟨hfront, by rw [hexpand, hvalues, hrest]⟩
        refine ⟨vs, us, .head hstep hsteps, ?_⟩
        rw [rounds, run_bind_of_ok hrun]
        exact hend

/-- What the tokens expand to until no item follows, a list has been read with these values; or the
list is refused where the expansion is stuck. -/
theorem values_outcome (g : Grammar) (c : Cursor) : ∃ vs us, Expands g c.rest vs us ∧
    (∀ s, ¬ExpansionStep g (vs, us) s) ∧ match (values g .real).run c with
      | (.ok l, c') => inFront g us = false ∧ l.values = vs ∧ c'.rest = us
      | (.error _, _) => inFront g us = true := by
  have hlength : c.rest.length < c.stream.size - c.stream.position + 1 :=
    Nat.lt_succ_of_le (c.stream.rest_length).le
  have hempty : FieldList.empty.IsReal := by simp [FieldList.IsReal, FieldList.empty]
  obtain ⟨vs, us, hsteps, hstuck, hend⟩ := rounds_expand (g := g) _ hempty hlength
  refine ⟨vs, us, hsteps, hstuck, ?_⟩
  have hloop : (loop (item? g .real) .empty).run c =
      (rounds (item? g .real) (c.stream.size - c.stream.position + 1) .empty).run c := rfl
  rw [← hloop] at hend
  rcases hrun : (loop (item? g .real) .empty).run c with ⟨_ | l, c'⟩
  · rw [hrun] at hend
    rw [values, run_bind_of_error hrun]
    exact hend
  · rw [hrun] at hend
    obtain ⟨hfront, hvalues, hrest⟩ := hend
    rw [values, run_bind_of_ok hrun]
    exact ⟨hfront, l.values_detachTail.trans hvalues, hrest⟩

/-- A list of real numbers is read exactly where its tokens can be expanded up to one that no list
goes on with, and it has the values of the expansion.  A shorthand that needs a value is refused
where there is none before it, and every count beyond the limit is. -/
theorem values_expand (g : Grammar) (c : Cursor) :
    (∀ vs us, (∃ l c', (values g .real).run c = (.ok l, c') ∧ l.values = vs ∧ c'.rest = us) ↔
      Expands g c.rest vs us ∧ inFront g us = false) ∧
    ∀ vs t us kind, Expands g c.rest vs (t :: us) → t.kind = .shorthand kind →
      kind ≠ .jump ∧ vs.getLast?.join = none ∨ kind ≠ .multiply ∧
      Limits.shorthandCount < writtenCount t.text → ∃ e c',
      (values g .real).run c = (.error e, c') := by
  obtain ⟨vs₀, us₀, hexpands, hstuck, hend⟩ := values_outcome g c
  have stuck_of_not_inFront {vs us} (h : inFront g us = false) :
      ∀ s, ¬ExpansionStep g (vs, us) s := by
    intro s hs
    rw [(expansionStep_iff.mp hs).1] at h
    cases h
  rcases hrun : (values g .real).run c with ⟨e | l, c'⟩
  · rw [hrun] at hend
    refine ⟨fun vs us ↦ ⟨?_, fun ⟨h, hfront⟩ ↦ ?_⟩, fun _ _ _ _ _ _ _ ↦ ⟨e, c', rfl⟩⟩
    · rintro ⟨l, c'', ⟨⟩, -⟩
    · obtain ⟨rfl, rfl⟩ := h.eq_of_stuck (stuck_of_not_inFront hfront) hexpands hstuck
      rw [hfront] at hend
      cases hend
  · rw [hrun] at hend
    obtain ⟨hfront, rfl, rfl⟩ := hend
    refine ⟨fun vs us ↦ ⟨?_, fun ⟨h, hfront'⟩ ↦ ?_⟩, fun vs t us kind h hkind hbad ↦ ?_⟩
    · rintro ⟨l, c'', ⟨⟩, rfl, rfl⟩
      exact ⟨hexpands, hfront⟩
    · obtain ⟨hvs, hus⟩ := h.eq_of_stuck (stuck_of_not_inFront hfront') hexpands hstuck
      exact ⟨l, c', rfl, hvs, hus⟩
    · have hnone : (front? g (t :: us)).bind (expand? vs) = none := by
        simp only [front?, hkind]
        split_ifs
        · obtain ⟨hjump, hvalue⟩ | ⟨hmultiply, hcount⟩ := hbad
          · exact expand?_eq_none_of_no_value hjump hvalue
          · rw [ofShorthand?_eq_none_of_count hmultiply hcount]
            rfl
        · rfl
      have hstop : ∀ s, ¬ExpansionStep g (vs, t :: us) s := by
        intro s hs
        rw [(expansionStep_iff.mp hs).2] at hnone
        cases hnone
      obtain ⟨-, hus⟩ := h.eq_of_stuck hstop hexpands hstuck
      rw [hus, inFront, hkind] at hfront
      cases hfront

/-- Points between two numbers, a copy of the second and places left open; these cannot be copied,
and there are not to be too many. -/
theorem values_expand_of_tokens :
    let token (kind : TokenKind) (text : String) : Token := ⟨kind, text, .point .start⟩
    let read (ts : List Token) := (values .data .real).run (.of (.of ts))
    Expands .data [token .number "1", token .space " ", token (.shorthand .linear) "3i",
      token .space " ",
        token .number "5", token .space " ", token (.shorthand .copies) "r",
        token (.shorthand .jump) "2j"]
      [some (.real 1.0), some (.real 2.0), some (.real 3.0), some (.real 4.0), some (.real 5.0),
        some (.real 5.0), none, none] [] ∧
    (∃ e c', read [token (.shorthand .jump) "2j", token .space " ",
      token (.shorthand .copies) "r"] = (.error e, c')) ∧
    ∃ e c', read [token (.shorthand .jump) "100001j"] = (.error e, c') := by
  intro token read
  have hread {ts : List Token} {vs : List (Option Value)} (h : (match read ts with
      | (.ok l, c) => decide (l.values = vs ∧ c.rest = [])
      | (.error _, _) => false) = true) : ∃ l c, read ts =
          (.ok l, c) ∧ l.values = vs ∧ c.rest = [] := by
    split at h
    · next l c hrun => exact ⟨l, c, hrun, of_decide_eq_true h⟩
    · cases h
  refine ⟨?_, ?_, ?_⟩
  · exact (((values_expand .data (.of (.of _))).1 _ _).mp (hread (by decide +kernel))).1
  · exact (values_expand .data (.of (.of _))).2 [none, none] (token (.shorthand .copies) "r")
      [] .copies (.single (expansionStep_iff.mpr (by decide +kernel))) rfl (.inl ⟨by decide, rfl⟩)
  · exact (values_expand .data (.of (.of _))).2 [] (token (.shorthand .jump) "100001j")
      [] .jump .refl rfl (.inr ⟨by decide, by decide +kernel⟩)

end Production

end TransportDeck
