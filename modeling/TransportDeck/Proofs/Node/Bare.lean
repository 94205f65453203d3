import TransportDeck.Node.Geometry
import TransportDeck.Node.Parameters
import TransportDeck.Proofs.Node.Runs
import TransportDeck.Proofs.Reconcile.Conservation

/-!
# Nodes without layout

What a node says does not depend on the layout in it.  Its bare form has none, and whatever is built
from nodes with the same bare form has the same bare form again.
-/

namespace TransportDeck

/-! ## Computations that may fail -/

section

variable {ε α β γ δ : Type} {g : α → γ} {h : β → δ}

/-- Computations agree if their first steps agree and what follows does. -/
theorem Except.map_bind_congr {x x' : Except ε α} {f f' : α → Except ε β} (hx : x.map g = x'.map g)
    (hf : ∀ a a', g a = g a' → (f a).map h = (f' a').map h) :
    (x >>= f).map h = (x' >>= f').map h := by
  cases x with
  | error e =>
    cases x' with
    | error e' =>
      obtain rfl := Except.error.inj hx
      rfl
    | ok a' => cases hx
  | ok a =>
    cases x' with
    | error e' => cases hx
    | ok a' => exact hf a a' (Except.ok.inj hx)

/-- Computations whose results look alike under `g` succeed together. -/
theorem Except.exists_of_map_eq {x x' : Except ε α} {a : α} (hx : x.map g = x'.map g)
    (h : x = .ok a) : ∃ a', x' = .ok a' ∧ g a = g a' := by
  subst h
  cases x' with
  | error e' => cases hx
  | ok a' => exact ⟨a', rfl, Except.ok.inj hx⟩

theorem Except.toOption_eq_some {x : Except ε α} {a : α} : x.toOption = some a ↔ x = .ok a := by
  cases x <;> simp [Except.toOption]

theorem Except.toOption_eq_none {x : Except ε α} : x.toOption = none ↔ ∃ e, x = .error e := by
  cases x <;> simp [Except.toOption]

/-- What can be computed from a result holds of it. -/
theorem Except.exists_of_any {x : Except ε α} {p : α → Bool} (h : x.toOption.any p = true) :
    ∃ a, x = .ok a ∧ p a = true := by
  obtain ⟨a, ha, hp⟩ := (Option.any_eq_true _ _).mp h
  exact ⟨a, Except.toOption_eq_some.mp ha, hp⟩

end

/-! ## Fields -/

namespace Field

def bare (f : Field) : Field := f.setLayout none

@[simp] theorem bare_setLayout (f : Field) (l : Option Layout) : (f.setLayout l).bare = f.bare :=
  rfl

@[simp] theorem bare_withLayout (f : Field) (l : Layout) : (f.withLayout l).bare = f.bare := rfl

@[simp] theorem signed_bare (f : Field) : f.bare.signed = f.signed := rfl

/-- The number in a field does not depend on the layout around it. -/
@[simp] theorem toReal?_bare (f : Field) : f.bare.toReal? = f.toReal? := rfl

/-- The integer in a field does not depend on the layout around it. -/
@[simp] theorem toInt?_bare (f : Field) : f.bare.toInt? = f.toInt? := rfl

@[simp] theorem kind_bare (f : Field) : f.bare.kind = f.kind := rfl

/-- Splitting the sign off a field leaves its layout alone. -/
theorem bare_splitSign (f : Field) : f.splitSign.bare = f.bare.splitSign := by
  have hvalue : f.bare.value = f.value := rfl
  unfold splitSign
  rw [hvalue]
  split <;> rfl

/-- Reading a field as a signed fraction leaves its layout alone. -/
@[simp] theorem bare_asSignedFraction (f : Field) :
    f.asSignedFraction.bare = f.bare.asSignedFraction := bare_splitSign _

/-- Fields with one bare form hold one number. -/
theorem toReal?_eq_of_bare {f g : Field} (h : f.bare = g.bare) : f.toReal? = g.toReal? := by
  rw [← toReal?_bare, h, toReal?_bare]

end Field

/-! ## Runs -/

namespace Lead

def bare : Lead → Lead
  | owned f => owned f.bare
  | chained v => chained v

@[simp] theorem value_bare (l : Lead) : l.bare.value = l.value := by cases l <;> rfl

@[simp] theorem kind_bare (l : Lead) : l.bare.kind = l.kind := by cases l <;> rfl

variable {l l' : Lead}

/-- Leads with one bare form start their runs at one value. -/
theorem value_eq_of_bare (h : l.bare = l'.bare) : l.value = l'.value := by
  rw [← value_bare, h, value_bare]

/-- Leads with one bare form hold values of one kind. -/
theorem kind_eq_of_bare (h : l.bare = l'.bare) : l.kind = l'.kind := by
  rw [← kind_bare, h, kind_bare]

/-- The template of a lead is bare up to its own layout. -/
theorem template_bare (l : Lead) : l.bare.template.bare = l.template.bare := by cases l <;> rfl

/-- Leads with one bare form lend the members of a run one template, up to layout. -/
theorem template_eq_of_bare (h : l.bare = l'.bare) : l.template.bare = l'.template.bare := by
  rw [← template_bare, h, template_bare]

end Lead

namespace Shorthand

def bare (s : Shorthand) : Shorthand :=
  { s with members := s.members.map Field.bare, midLayout := none, endLayout := none }

/-- The checked count of a run does not depend on the layout in it. -/
@[simp] theorem countValue_bare (s : Shorthand) : s.bare.countValue = s.countValue := rfl

/-- Putting a lead in front of a run commutes with leaving out the layout. -/
theorem bare_withLead (s : Shorthand) (lead : Lead) (rest : List Field) :
    (s.withLead lead rest).bare = s.bare.withLead lead.bare (rest.map Field.bare) := by
  cases lead <;> simp [withLead, bare, Lead.bare, Lead.members, Lead.isChained, Lead.anchor]

/-- Runs with one bare form have one bare form behind leads that do. -/
theorem bare_withLead_congr {s s' : Shorthand} {lead lead' : Lead} {fs fs' : List Field}
    (hs : s.bare = s'.bare) (hlead : lead.bare = lead'.bare)
    (hfs : fs.map Field.bare = fs'.map Field.bare) :
    (s.withLead lead fs).bare = (s'.withLead lead' fs').bare := by
  rw [bare_withLead, bare_withLead, hs, hlead, hfs]

/-- A run is made from a token, or refused, regardless of the layout behind it. -/
theorem map_bare_ofToken (id : Nat) (kind : ShorthandKind) (token : String) (l l' : Option Layout) :
    (ofToken id kind token l).map bare = (ofToken id kind token l').map bare := by
  unfold ofToken
  dsimp only
  split_ifs
  · rfl
  · split <;> rfl

/-- A run is read from its token and the count that the token gives. -/
theorem map_bare_bind_countValue {s s' : Shorthand} (hs : s.bare = s'.bare)
    {f f' : Nat → Except ShorthandError Shorthand} (hf : ∀ n, (f n).map bare = (f' n).map bare) :
    (s.countValue >>= f).map bare = (s'.countValue >>= f').map bare := by
  rw [← countValue_bare, hs, countValue_bare]
  refine Except.map_bind_congr (g := fun n ↦ n) rfl fun n _ hn ↦ ?_
  subst hn
  exact hf n

variable (id : Nat) {lead lead' : Lead} (token : String) (l l' : Option Layout)

/-- A jump is made or refused regardless of the layout behind it. -/
theorem map_bare_jump : (jump id token l).map bare = (jump id token l').map bare := by
  refine Except.map_bind_congr (map_bare_ofToken id .jump token l l') fun s s' hs ↦ ?_
  refine map_bare_bind_countValue hs fun n ↦ congrArg Except.ok ?_
  simp only [bare, Shorthand.mk.injEq] at hs ⊢
  simp [hs]

/-- A repeat is made or refused regardless of the layout around it. -/
theorem map_bare_copies (hlead : lead.bare = lead'.bare) :
    (copies id lead token l).map bare = (copies id lead' token l').map bare := by
  rw [copies_eq, copies_eq, Lead.value_eq_of_bare hlead]
  refine Except.map_bind_congr (map_bare_ofToken id .copies token l l') fun s s' hs ↦ ?_
  refine map_bare_bind_countValue hs fun n ↦ ?_
  split_ifs
  · rfl
  · exact congrArg Except.ok
      (bare_withLead_congr hs hlead (by simp [Lead.template_eq_of_bare hlead]))

/-- A multiplication is made or refused regardless of the layout around it. -/
theorem map_bare_multiply (hlead : lead.bare = lead'.bare) :
    (multiply id lead token l).map bare = (multiply id lead' token l').map bare := by
  refine Except.map_bind_congr (map_bare_ofToken id .multiply token l l') fun s s' hs ↦ ?_
  have hcount : s.count = s'.count := (Shorthand.mk.inj hs).2.2.2.2.1
  rw [hcount]
  split
  · rfl
  · rw [Lead.value_eq_of_bare hlead, Lead.kind_eq_of_bare hlead]
    refine Except.map_bind_congr (g := fun x ↦ x) rfl fun x _ hx ↦ ?_
    subst hx
    exact congrArg Except.ok (bare_withLead_congr hs hlead rfl)

/-- An interpolation is made or refused regardless of the layout around it. -/
theorem map_bare_interpolate (kind : ShorthandKind) (hlead : lead.bare = lead'.bare)
    {last last' : Field} (hlast : last.bare = last'.bare) :
    (interpolate id kind lead token l last).map bare =
      (interpolate id kind lead' token l' last').map bare := by
  refine Except.map_bind_congr (map_bare_ofToken id kind token none none) fun s s' hs ↦ ?_
  refine map_bare_bind_countValue hs fun n ↦ ?_
  rw [Lead.value_eq_of_bare hlead, Lead.kind_eq_of_bare hlead]
  refine Except.map_bind_congr (g := fun x ↦ x) rfl fun x _ hx ↦ ?_
  subst hx
  rw [Field.toReal?_eq_of_bare hlast]
  split
  · rfl
  · split_ifs
    · rfl
    · refine congrArg Except.ok ?_
      have hmembers (steps : List Field) := bare_withLead_congr hs hlead
        (show (steps ++ [last]).map Field.bare = (steps ++ [last']).map Field.bare by simp [hlast])
      simp only [bare, Shorthand.mk.injEq] at hmembers ⊢
      simp [hmembers]

theorem bare_setTrailing (s : Shorthand) (l : Option Layout) : (s.setTrailing l).bare = s.bare := by
  have hmembers : (mapLast (·.setLayout l) s.members).map Field.bare = s.members.map Field.bare :=
    map_mapLast (g := (·.setLayout l)) (fun _ ↦ rfl) s.members
  unfold setTrailing bare
  split_ifs
  · simp [hmembers]
  · rfl

end Shorthand

/-! ## Lists -/

namespace Item

def bare : Item → Item
  | field f => field f.bare
  | run s => run s.bare

theorem bare_setTrailing (i : Item) (l : Option Layout) : (i.setTrailing l).bare = i.bare := by
  cases i with
  | field f => rfl
  | run s => exact congrArg run (s.bare_setTrailing l)

/-- The fields of a bare item are its bare fields. -/
theorem fields_bare (i : Item) : i.bare.fields = i.fields.map Field.bare := by
  cases i <;> rfl

end Item

namespace FieldList

def bare (l : FieldList) : FieldList := { l with items := l.items.map Item.bare, tail := none }

variable {l l' : FieldList}

/-- A field is put at the end of two lists with one bare form. -/
theorem bare_pushField (h : l.bare = l'.bare) {f f' : Field} (hf : f.bare = f'.bare) :
    (l.pushField f).bare = (l'.pushField f').bare := by
  simp only [bare, pushField, FieldList.mk.injEq] at h ⊢
  simp [h, Item.bare, hf]

/-- The next free number is taken from two lists with one bare form. -/
theorem bare_takeId (h : l.bare = l'.bare) : l.takeId.bare = l'.takeId.bare := by
  simp only [bare, takeId, FieldList.mk.injEq] at h ⊢
  simp [h]

/-- A run is put at the end of two lists with one bare form. -/
theorem bare_pushRun (h : l.bare = l'.bare) {s s' : Shorthand} (hs : s.bare = s'.bare) :
    (l.pushRun s).bare = (l'.pushRun s').bare := by
  have hid : s.id = s'.id := (Shorthand.mk.inj hs).1
  simp only [bare, pushRun, FieldList.mk.injEq] at h ⊢
  simp [h, Item.bare, hs, hid]

/-- Whether a list ends with a run is not a matter of layout. -/
theorem endsWithRun_bare (l : FieldList) : l.bare.endsWithRun = l.endsWithRun := by
  simp only [endsWithRun, bare, List.getLast?_map]
  cases l.items.getLast? with
  | none => rfl
  | some i => cases i <;> rfl

/-- The last field of a list is taken off before or after the layout is left out. -/
theorem popField?_bare (l : FieldList) :
    l.bare.popField? = l.popField?.map fun p ↦ (p.1.bare, p.2.bare) := by
  simp only [popField?, bare, List.getLast?_map]
  cases l.items.getLast? with
  | none => rfl
  | some i => cases i <;> simp [Item.bare]

theorem fields_bare (l : FieldList) : l.bare.fields = l.fields.map Field.bare := by
  simp [fields, bare, List.flatMap_map, List.map_flatMap, Item.fields_bare]

/-- The values of a list do not depend on the layout in it. -/
theorem values_bare (l : FieldList) : l.bare.values = l.values := by
  simp [values, fields_bare]

theorem last?_bare (l : FieldList) : l.bare.last? = l.last?.map Field.bare := by
  rw [last?, fields_bare, List.getLast?_map, last?]

/-- The layout at the end of a list is no part of its bare form. -/
theorem bare_detachTail (l : FieldList) : l.detachTail.bare = l.bare := by
  unfold detachTail
  split
  · next layout hlayout =>
    obtain ⟨i, hlast, -⟩ := Option.bind_eq_some_iff.mp hlayout
    obtain ⟨items, hitems⟩ := List.getLast?_eq_some_iff.mp hlast
    simp [mapLastItem, setTail, bare, hitems, Item.bare_setTrailing]
  · rfl

theorem isEmpty_bare (l : FieldList) : l.bare.isEmpty = l.isEmpty := by
  simp [isEmpty, bare]

end FieldList

/-! ## Parameters -/

namespace Classifier

def bare (c : Classifier) : Classifier :=
  { c with
    modifier := c.modifier.map Field.bare, name := c.name.bare, number := c.number.map Field.bare
    layout := none }

/-- The key of a classifier does not depend on the layout behind it. -/
theorem key_bare (c : Classifier) : c.bare.key = c.key := by
  have hnumber : c.bare.numberValue? = c.numberValue? := by
    cases hc : c.number <;> simp [numberValue?, bare, hc]
  rw [key, key, hnumber]
  rfl

end Classifier

namespace Parameter

/-- Only whether an equals sign stands there is kept of what separates the values. -/
def bare (p : Parameter) : Parameter :=
  ⟨p.classifier.bare, p.separator.map fun _ ↦ .empty, p.values.bare⟩

/-- A parameter is filed under one key whatever its layout. -/
theorem key_bare (p : Parameter) : p.bare.key = p.key := p.classifier.key_bare

/-- Parameters with one bare form are filed under one key. -/
theorem key_eq_of_bare {p q : Parameter} (h : p.bare = q.bare) : p.key = q.key := by
  rw [← key_bare, h, key_bare]

theorem bare_closed (p : Parameter) : p.closed.bare = p.bare := by
  unfold closed
  split_ifs <;> rfl

end Parameter

/-! ## Geometries -/

namespace GeometryEntry

def bare : GeometryEntry → GeometryEntry
  | leaf f => leaf f.bare
  | run s => run s.bare
  | branch b => branch { b with opLayout := .empty, closing := b.closing.map fun _ ↦ .empty }

variable {i j k l : Nat} (x y x' y' : Layout)

/-- Branches with the same operator and operands have one bare form. -/
theorem bare_binary (op : GeometryOp) (hleft : i = j) (hright : k = l) :
    (branch (.binary op i x k)).bare = (branch (.binary op j y l)).bare := by
  subst hleft hright
  rfl

theorem bare_complement (h : i = j) :
    (branch (.complement x i)).bare = (branch (.complement y j)).bare := by
  subst h
  rfl

theorem bare_group (h : i = j) : (branch (.group x i x')).bare = (branch (.group y j y')).bare := by
  subst h
  rfl

end GeometryEntry

namespace Geometry

def bare (g : Geometry) : Geometry :=
  { g with entries := g.entries.map GeometryEntry.bare, trailing := none }

theorem size_bare (g : Geometry) : g.bare.size = g.size := by simp [size, bare]

/-- An entry of a geometry is made bare where it stands. -/
theorem entry?_bare (g : Geometry) (id : Nat) :
    g.bare.entry? id = (g.entry? id).map GeometryEntry.bare := by
  simp [ entry?, bare]

variable {g g' : Geometry}

/-- Geometries with one bare form have one size. -/
theorem size_eq_of_bare (h : g.bare = g'.bare) : g.size = g'.size := by
  rw [← size_bare, h, size_bare]

/-- An entry is pushed to two geometries with one bare form. -/
theorem bare_push (h : g.bare = g'.bare) {e e' : GeometryEntry} (he : e.bare = e'.bare) :
    (g.push e).bare = (g'.push e').bare := by
  simp only [bare, push, Geometry.mk.injEq] at h ⊢
  simp [h, he]

end Geometry

end TransportDeck
