import TransportDeck.Proofs.Node.Bare
import TransportDeck.Proofs.Token.LetterCase

/-!
# Nodes in any letter case

A node in small letters has neither layout nor capitals.  What it says is still the same: its
numbers, its keys and the places of its operands.  Whatever is built from nodes that are the same in
small letters is the same again, and it fails alike.
-/

namespace TransportDeck

open Text

/-! ## Computations that fail alike -/

/-- Both computations fail, or both give a result. -/
inductive Except.Agree {ε α β : Type} (E : ε → ε → Prop) (V : α → β → Prop) :
    Except ε α → Except ε β → Prop
  | ok {a : α} {b : β} (h : V a b) : Agree E V (.ok a) (.ok b)
  | error {e e' : ε} (h : E e e') : Agree E V (.error e) (.error e')

namespace Except.Agree

variable {ε α β γ δ : Type} {E : ε → ε → Prop} {V V' : α → β → Prop} {W : γ → δ → Prop}
  {x : Except ε α} {y : Except ε β} {f : α → Except ε γ} {g : β → Except ε δ}

theorem mono (h : Agree E V x y) (hV : ∀ a b, V a b → V' a b) : Agree E V' x y := by
  cases h with
  | ok h => exact .ok (hV _ _ h)
  | error h => exact .error h

/-- Two runs agree if their first steps do and the continuations agree on related results. -/
theorem bind (h : Agree E V x y) (hf : ∀ a b, V a b → Agree E W (f a) (g b)) :
    Agree E W (x >>= f) (y >>= g) := by
  cases h with
  | ok h => exact hf _ _ h
  | error h => exact .error h

end Except.Agree

/-- Two options with one image are both empty, or both hold something with that image. -/
theorem Option.cases_of_map_eq {α β : Type} {φ : α → β} {o o' : Option α} (h : o.map φ = o'.map φ) :
    (o = none ∧ o' = none) ∨ ∃ a b, o = some a ∧ o' = some b ∧ φ a = φ b := by
  rcases o with _ | a <;> rcases o' with _ | b
  · exact .inl ⟨rfl, rfl⟩
  · cases h
  · cases h
  · exact .inr ⟨a, b, rfl, rfl, Option.some.inj h⟩

/-! ## Values and fields -/

namespace Value

def lowered : Value → Value
  | text s => text (lowerString s)
  | v => v

/-- A value is the same real number in capital letters: only words have letters, and a word is no
number. -/
@[simp] theorem toReal?_lowered (v : Value) : v.lowered.toReal? = v.toReal? := by cases v <;> rfl

@[simp] theorem toInt?_lowered (v : Value) : v.lowered.toInt? = v.toInt? := by cases v <;> rfl

@[simp] theorem kind_lowered (v : Value) : v.lowered.kind = v.kind := by cases v <;> rfl

/-- Changing the sign of a value and the case of its letters are independent of each other. -/
@[simp] theorem negate_lowered (v : Value) : v.lowered.negate = v.negate.lowered := by
  cases v <;> rfl

@[simp] theorem magnitude_lowered (v : Value) : v.lowered.magnitude = v.magnitude.lowered := by
  cases v <;> rfl

@[simp] theorem isNegative_lowered (v : Value) : v.lowered.isNegative = v.isNegative := by
  cases v <;> rfl

end Value

namespace Field

/-- The field in small letters and without layout. -/
def lowered (f : Field) : Field :=
  { f.bare with
    token := f.token.map lowerString, value := f.value.map Value.lowered, asRead :=
      f.asRead.map Value.lowered }

@[simp] theorem lowered_withLayout (f : Field) (l : Layout) :
    (f.withLayout l).lowered = f.lowered := rfl

@[simp] theorem kind_lowered (f : Field) : f.lowered.kind = f.kind := rfl

@[simp] theorem negative_lowered (f : Field) : f.lowered.negative = f.negative := rfl

/-- The value of a field in lower case is that value in lower case. -/
@[simp] theorem value_lowered (f : Field) : f.lowered.value = f.value.map Value.lowered := rfl

theorem lowered_neverPad (f : Field) : f.neverPad.lowered = f.lowered.neverPad := rfl

/-- The sign that a field shows in front of its value is the same in either case. -/
theorem signed_lowered (f : Field) : f.lowered.signed = f.signed.map Value.lowered := by
  change (if f.signFlag.apart && f.negative then (f.value.map Value.lowered).map Value.negate
    else f.value.map Value.lowered) =
      (if f.signFlag.apart && f.negative then f.value.map Value.negate
    else f.value).map Value.lowered
  split_ifs
  · rw [Option.map_map, Option.map_map]
    exact congrArg (f.value.map ·) (funext Value.negate_lowered)
  · rfl

/-- The number in a field does not depend on the case of its exponent letter. -/
@[simp] theorem toReal?_lowered (f : Field) : f.lowered.toReal? = f.toReal? := by
  rw [toReal?, signed_lowered, toReal?]
  cases f.signed <;> simp

@[simp] theorem toInt?_lowered (f : Field) : f.lowered.toInt? = f.toInt? := by
  rw [toInt?, signed_lowered, toInt?]
  cases f.signed <;> simp

theorem toText?_lowered (f : Field) : f.lowered.toText? = f.toText?.map lowerString := by
  rw [toText?, toText?, value_lowered]
  rcases f.value with _ | (n | x | s) <;> rfl

/-- Splitting the sign off a field commutes with lowering its letters. -/
theorem lowered_splitSign (f : Field) : f.splitSign.lowered = f.lowered.splitSign := by
  rcases f with ⟨token, _ | v, asRead, kind, layout, flag, negative, padded⟩
  · rfl
  · simp [splitSign, lowered, bare, setLayout]

/-- Reading a field as a signed identifier commutes with lowering its letters. -/
theorem lowered_asSignedIdentifier (f : Field) :
    f.asSignedIdentifier.lowered = f.lowered.asSignedIdentifier :=
  lowered_splitSign _

/-- Reading a field as a signed fraction commutes with lowering its letters. -/
theorem lowered_asSignedFraction (f : Field) :
    f.asSignedFraction.lowered = f.lowered.asSignedFraction :=
  lowered_splitSign _

/-- A field read from a token is, in lower case, the one read from the token in lower case. -/
theorem lowered_parse? (token : String) (kind : ValueKind) (l : Option Layout) :
    (parse? token kind l).map lowered = parse? (lowerString token) kind none := by
  have hread : (readValue? kind token).map Value.lowered = readValue? kind (lowerString token) := by
    cases kind with
    | int =>
      simp only [readValue?, Number.readInt?_lowerString, Option.map_map]
      rfl
    | real =>
      simp only [readValue?, Number.readReal?_lowerString, Option.map_map]
      rfl
    | text => rfl
  rw [parse?, parse?, ← hread, Option.map_map, Option.map_map]
  rfl

/-- A field without a token is lowered by lowering its value. -/
theorem lowered_new (v : Option Value) (k : ValueKind) (h : ∀ u ∈ v, u.kind = k) :
    (new v k).lowered = new (v.map Value.lowered) k := by
  rcases v with _ | u
  · rfl
  · obtain rfl := h u rfl
    cases u <;> rfl

variable {f g : Field}

/-- Tokens that differ in the case of letters give fields that differ in nothing else. -/
theorem parse?_alike {s t : String} (h : lowerString s = lowerString t) (kind : ValueKind) :
    (parse? s kind none).map lowered = (parse? t kind none).map lowered := by
  rw [lowered_parse?, h, lowered_parse?]

/-- Fields that differ in the case of letters hold one real number. -/
theorem toReal?_alike (h : f.lowered = g.lowered) : f.toReal? = g.toReal? := by
  rw [← toReal?_lowered, h, toReal?_lowered]

/-- Fields that differ in the case of letters hold one integer. -/
theorem toInt?_alike (h : f.lowered = g.lowered) : f.toInt? = g.toInt? := by
  rw [← toInt?_lowered, h, toInt?_lowered]

end Field

/-! ## Runs -/

namespace Lead

def lowered : Lead → Lead
  | owned f => owned f.lowered
  | chained v => chained (v.map Value.lowered)

variable {l l' : Lead}

theorem value_lowered (l : Lead) : l.lowered.value = l.value.map Value.lowered := by
  cases l with
  | owned f => exact f.signed_lowered
  | chained v => rfl

theorem kind_lowered (l : Lead) : l.lowered.kind = l.kind := by cases l <;> rfl

theorem isChained_lowered (l : Lead) : l.lowered.isChained = l.isChained := by cases l <;> rfl

/-- The anchor of a run is a number of its list, so it does not see letters. -/
theorem anchor_lowered (l : Lead) : l.lowered.anchor = l.anchor := by
  rcases l with f | _ | v <;> simp [lowered, anchor]

/-- The fields that lead a run are lowered one by one. -/
theorem members_lowered (l : Lead) : l.lowered.members = l.members.map Field.lowered := by
  cases l <;> rfl

theorem template_lowered (l : Lead) : l.lowered.template = l.template.lowered := by
  rcases l with f | _ | v
  · rfl
  · rfl
  · exact ((Field.lowered_new (some v) v.kind (by simp)).trans (by simp [lowered, template])).symm

/-- Leads that differ in the case of letters start their runs at one value. -/
theorem value_alike (h : l.lowered = l'.lowered) :
    l.value.map Value.lowered = l'.value.map Value.lowered := by
  rw [← value_lowered, h, value_lowered]

/-- Leads that differ in the case of letters hold values of one kind. -/
theorem kind_alike (h : l.lowered = l'.lowered) : l.kind = l'.kind := by
  rw [← kind_lowered, h, kind_lowered]

/-- Leads that differ in the case of letters lend the members of a run one layout. -/
theorem template_alike (h : l.lowered = l'.lowered) : l.template.lowered = l'.template.lowered := by
  rw [← template_lowered, h, template_lowered]

end Lead

namespace ShorthandError

/-- The error with the token that it shows in small letters. -/
def lowered : ShorthandError → ShorthandError
  | invalidToken token => invalidToken (lowerString token)
  | countTooLarge token count => countTooLarge (lowerString token) count
  | e => e

end ShorthandError

/-- The count and the letter of a run are split at the same place in either case. -/
theorem ShorthandKind.split_lowerString (kind : ShorthandKind) (token : String) :
    kind.split (lowerString token) =
      (lowerString (kind.split token).1, lowerString (kind.split token).2) := by
  unfold split
  dsimp only
  rw [toList_lowerString, CaseBlind.takeWhile_lower Lexer.isDigit_toLower,
    CaseBlind.dropWhile_lower Lexer.isDigit_toLower, drop_lower, length_lower]
  cases kind <;> simp only [lowerString_ofList]
  rw [lower, lower, ← List.map_dropLast]
  rfl

theorem Text.length_lowerString (s : String) : (lowerString s).length = s.length := by
  rw [← String.length_toList, toList_lowerString, length_lower, String.length_toList]

theorem Text.isEmpty_lowerString (s : String) : (lowerString s).isEmpty = s.isEmpty := by
  rw [Bool.eq_iff_iff, String.isEmpty_iff, String.isEmpty_iff, ← String.toList_eq_nil_iff,
    ← String.toList_eq_nil_iff, toList_lowerString, lower, List.map_eq_nil_iff]

namespace Shorthand

/-- The run in small letters and without layout. -/
def lowered (s : Shorthand) : Shorthand :=
  { s with
    members := s.members.map Field.lowered, count := s.count.map Field.lowered, letters :=
      lowerString s.letters
    midLayout := none, endLayout := none }

/-- Both readings fail with the same error up to letter case, or give the same run. -/
def Agree : Except ShorthandError Shorthand → Except ShorthandError Shorthand → Prop :=
  Except.Agree (fun e e' ↦ e.lowered = e'.lowered) fun s s' ↦ s.lowered = s'.lowered

variable {id : Nat} {kind : ShorthandKind} {lead lead' : Lead}
  {token token' : String} {l l' : Option Layout}

/-- A run is made from a token, or refused, regardless of the case of its letter. -/
theorem agree_ofToken (h : lowerString token = lowerString token') :
    Agree (ofToken id kind token l) (ofToken id kind token' l') := by
  have hsplit : (lowerString (kind.split token).1, lowerString (kind.split token).2) =
      (lowerString (kind.split token').1, lowerString (kind.split token').2) := by
    rw [← kind.split_lowerString, h, kind.split_lowerString]
  obtain ⟨hcount, hletters⟩ := Prod.mk.inj hsplit
  have hempty : (kind.split token).1.isEmpty = (kind.split token').1.isEmpty := by
    rw [← isEmpty_lowerString, hcount, isEmpty_lowerString]
  unfold ofToken
  dsimp only
  rw [hempty]
  split_ifs
  · refine .ok ?_
    simp [lowered, hletters]
  · obtain ⟨hf, hf'⟩ | ⟨f, f', hf, hf', hlowered⟩ :=
      Option.cases_of_map_eq (Field.parse?_alike hcount (countKind kind))
    · rw [hf, hf']
      exact .error (congrArg ShorthandError.invalidToken h)
    · rw [hf, hf']
      refine .ok ?_
      simp [lowered, hletters, Field.lowered_neverPad, hlowered]

variable {s s' : Shorthand}

/-- The count of a run, as an integer, does not depend on the case of letters. -/
theorem toInt?_count_alike (h : s.lowered = s'.lowered) :
    s.count.bind Field.toInt? = s'.count.bind Field.toInt? := by
  have hcount (s : Shorthand) : s.count.bind Field.toInt? = s.lowered.count.bind Field.toInt? := by
    cases hs : s.count <;> simp [lowered, hs]
  rw [hcount, h, ← hcount]

/-- The count of a run, as a real factor, does not depend on the case of letters. -/
theorem toReal?_count_alike (h : s.lowered = s'.lowered) :
    s.count.bind Field.toReal? = s'.count.bind Field.toReal? := by
  have hcount (s : Shorthand) :
      s.count.bind Field.toReal? = s.lowered.count.bind Field.toReal? := by
    cases hs : s.count <;> simp [lowered, hs]
  rw [hcount, h, ← hcount]

/-- Runs that differ in the case of letters are written alike up to the case of letters. -/
theorem written_alike (h : s.lowered = s'.lowered) :
    lowerString s.written = lowerString s'.written := by
  have hwritten (s : Shorthand) : lowerString s.written = s.lowered.written := by
    rw [written, written, lowerString_append]
    rcases hs : s.count with _ | f
    · simp only [lowered, hs]
      rfl
    · cases hf : f.token with
      | none =>
        simp only [lowered, hs, hf, Field.lowered, Option.map_some,
          Option.bind_some, Option.map_none]
        rfl
      | some token => simp [lowered, hs, hf, Field.lowered]
  rw [hwritten, h, ← hwritten]

/-- The checked count of a run does not depend on the case of letters, and nor does its error. -/
theorem agree_countValue (h : s.lowered = s'.lowered) :
    Except.Agree (fun e e' : ShorthandError ↦ e.lowered = e'.lowered)
      Eq s.countValue s'.countValue := by
  unfold countValue
  rw [toInt?_count_alike h]
  split
  · exact .ok rfl
  · split_ifs
    · exact .error (congrArg ShorthandError.invalidToken (written_alike h))
    · exact .error (congrArg (ShorthandError.countTooLarge · _) (written_alike h))
    · exact .ok rfl

/-- A run is read from its token and the count that the token gives. -/
theorem agree_bind_countValue (h : s.lowered = s'.lowered)
    {f f' : Nat → Except ShorthandError Shorthand} (hf : ∀ n, Agree (f n) (f' n)) :
    Agree (s.countValue >>= f) (s'.countValue >>= f') :=
  (agree_countValue h).bind fun n _ hn ↦ hn ▸ hf n

/-- A run that needs a number in front of it is refused for leads in either case. -/
theorem agree_needNumber (kind : String) {v v' : Option Value}
    (h : v.map Value.lowered = v'.map Value.lowered) :
    Except.Agree (fun e e' : ShorthandError ↦ e.lowered = e'.lowered) Eq (needNumber kind v)
      (needNumber kind v') := by
  rcases v with _ | v <;> rcases v' with _ | v' <;> try cases h
  · exact .error rfl
  · have hreal : v.toReal? = v'.toReal? := by
      rw [← v.toReal?_lowered, Option.some.inj h, v'.toReal?_lowered]
    simp only [needNumber]
    rw [hreal]
    split
    · exact .error rfl
    · exact .ok rfl

/-- Putting a lead in front of a run commutes with lowering both. -/
theorem lowered_withLead (s : Shorthand) (lead : Lead) (rest : List Field) :
    (s.withLead lead rest).lowered = s.lowered.withLead lead.lowered (rest.map Field.lowered) := by
  simp [withLead, lowered, Lead.members_lowered, Lead.isChained_lowered, Lead.anchor_lowered]

/-- Runs that agree up to the case of letters agree in front of leads that do, too. -/
theorem withLead_alike (hs : s.lowered = s'.lowered) (hlead : lead.lowered = lead'.lowered)
    {fs fs' : List Field} (hfs : fs.map Field.lowered = fs'.map Field.lowered) :
    (s.withLead lead fs).lowered = (s'.withLead lead' fs').lowered := by
  rw [lowered_withLead, lowered_withLead, hs, hlead, hfs]

/-- A jump token is read alike in either case, with the same number of members. -/
theorem agree_jump (h : lowerString token = lowerString token') :
    Agree (jump id token l) (jump id token' l') := by
  refine (agree_ofToken h).bind fun s s' hs ↦ agree_bind_countValue hs fun n ↦ .ok ?_
  simp only [lowered, Shorthand.mk.injEq] at hs ⊢
  simp [hs]

/-- A repeat token behind a lead is read alike in either case. -/
theorem agree_copies (h : lowerString token = lowerString token')
    (hlead : lead.lowered = lead'.lowered) :
    Agree (copies id lead token l) (copies id lead' token' l') := by
  have hnone : lead.value.isNone = lead'.value.isNone := by
    rw [← Option.isNone_map, Lead.value_alike hlead, Option.isNone_map]
  rw [copies_eq, copies_eq, hnone]
  refine (agree_ofToken h).bind fun s s' hs ↦ agree_bind_countValue hs fun n ↦ ?_
  split_ifs
  · exact .error rfl
  · exact .ok (withLead_alike hs hlead (by simp [Lead.template_alike hlead]))

/-- A multiplication behind a lead is read alike in either case. -/
theorem agree_multiply (h : lowerString token = lowerString token')
    (hlead : lead.lowered = lead'.lowered) :
    Agree (multiply id lead token l) (multiply id lead' token' l') := by
  refine (agree_ofToken h).bind fun s s' hs ↦ ?_
  rw [toReal?_count_alike hs]
  split
  · exact .error (congrArg ShorthandError.invalidToken h)
  · rw [Lead.kind_alike hlead]
    refine (agree_needNumber _ (Lead.value_alike hlead)).bind fun x _ hx ↦ ?_
    subst hx
    exact .ok (withLead_alike hs hlead rfl)

/-- An interpolation between two fields is read alike in either case. -/
theorem agree_interpolate (h : lowerString token = lowerString token')
    (hlead : lead.lowered = lead'.lowered) {last last' : Field}
    (hlast : last.lowered = last'.lowered) :
    Agree (interpolate id kind lead token l last) (interpolate id kind lead' token' l' last') := by
  refine (agree_ofToken h).bind fun s s' hs ↦ agree_bind_countValue hs fun n ↦ ?_
  rw [Lead.kind_alike hlead]
  refine (agree_needNumber _ (Lead.value_alike hlead)).bind fun x _ hx ↦ ?_
  subst hx
  rw [Field.toReal?_alike hlast]
  split
  · exact .error rfl
  · split_ifs
    · exact .error rfl
    · refine .ok ?_
      have hmembers (steps : List Field) := withLead_alike hs hlead
        (show (steps ++ [last]).map Field.lowered =
        (steps ++ [last']).map Field.lowered by simp [hlast])
      simp only [lowered, Shorthand.mk.injEq] at hmembers ⊢
      simp [hmembers]

/-- The layout behind a run is no part of what is compared. -/
theorem lowered_setTrailing (s : Shorthand) (l : Option Layout) :
    (s.setTrailing l).lowered = s.lowered := by
  have hmembers :
      (mapLast (·.setLayout l) s.members).map Field.lowered = s.members.map Field.lowered :=
    map_mapLast (g := (·.setLayout l)) (fun _ ↦ rfl) s.members
  unfold setTrailing lowered
  split_ifs
  · simp [hmembers]
  · rfl

end Shorthand

/-! ## Lists -/

namespace Item

def lowered : Item → Item
  | field f => field f.lowered
  | run s => run s.lowered

theorem lowered_setTrailing (i : Item) (l : Option Layout) :
    (i.setTrailing l).lowered = i.lowered := by
  cases i with
  | field f => rfl
  | run s => exact congrArg run (s.lowered_setTrailing l)

/-- The fields of an item in lower case are its fields in lower case. -/
theorem fields_lowered (i : Item) : i.lowered.fields = i.fields.map Field.lowered := by
  cases i <;> rfl

end Item

namespace FieldList

/-- The list in small letters and without layout. -/
def lowered (l : FieldList) : FieldList :=
  { l with items := l.items.map Item.lowered, tail := none }

variable {l l' : FieldList}

/-- A field is put at the end of two lists that agree, and they agree again. -/
theorem pushField_alike (h : l.lowered = l'.lowered) {f f' : Field} (hf : f.lowered = f'.lowered) :
    (l.pushField f).lowered = (l'.pushField f').lowered := by
  simp only [lowered, pushField, FieldList.mk.injEq] at h ⊢
  simp [h, Item.lowered, hf]

/-- The next free number is taken from two lists that agree, and they agree again. -/
theorem takeId_alike (h : l.lowered = l'.lowered) : l.takeId.lowered = l'.takeId.lowered := by
  simp only [lowered, takeId, FieldList.mk.injEq] at h ⊢
  simp [h]

/-- A run is put at the end of two lists that agree, and they agree again. -/
theorem pushRun_alike (h : l.lowered = l'.lowered) {s s' : Shorthand}
    (hs : s.lowered = s'.lowered) : (l.pushRun s).lowered = (l'.pushRun s').lowered := by
  have hid : s.id = s'.id := (Shorthand.mk.inj hs).1
  simp only [lowered, pushRun, FieldList.mk.injEq] at h ⊢
  simp [h, Item.lowered, hs, hid]

/-- Whether a list ends with a run is not a matter of letters. -/
theorem endsWithRun_lowered (l : FieldList) : l.lowered.endsWithRun = l.endsWithRun := by
  simp only [endsWithRun, lowered, List.getLast?_map]
  cases l.items.getLast? with
  | none => rfl
  | some i => cases i <;> rfl

/-- The last field of a list is taken off before or after its letters are lowered. -/
theorem popField?_lowered (l : FieldList) :
    l.lowered.popField? = l.popField?.map fun p ↦ (p.1.lowered, p.2.lowered) := by
  simp only [popField?, lowered, List.getLast?_map]
  cases l.items.getLast? with
  | none => rfl
  | some i => cases i <;> simp [Item.lowered]

/-- The fields of a list in lower case are its fields in lower case. -/
theorem fields_lowered (l : FieldList) : l.lowered.fields = l.fields.map Field.lowered := by
  simp [fields, lowered, List.flatMap_map, List.map_flatMap, Item.fields_lowered]

/-- The values of a list in lower case are its values in lower case. -/
theorem values_lowered (l : FieldList) :
    l.lowered.values = l.values.map (Option.map Value.lowered) := by
  simp only [values, fields_lowered, List.map_map]
  exact List.map_congr_left fun f _ ↦ f.signed_lowered

theorem last?_lowered (l : FieldList) : l.lowered.last? = l.last?.map Field.lowered := by
  rw [last?, fields_lowered, List.getLast?_map, last?]

/-- The layout at the end of a list is no part of what is compared. -/
theorem lowered_detachTail (l : FieldList) : l.detachTail.lowered = l.lowered := by
  unfold detachTail
  split
  · next layout hlayout =>
    obtain ⟨i, hlast, -⟩ := Option.bind_eq_some_iff.mp hlayout
    obtain ⟨items, hitems⟩ := List.getLast?_eq_some_iff.mp hlast
    simp [mapLastItem, setTail, lowered, hitems, Item.lowered_setTrailing]
  · rfl

theorem isEmpty_lowered (l : FieldList) : l.lowered.isEmpty = l.isEmpty := by
  simp [isEmpty, lowered]

end FieldList

/-! ## Nuclides -/

namespace Nuclides

/-- The nuclides in small letters and without layout. -/
def lowered (ns : Nuclides) : Nuclides := ⟨ns.pairs.map fun n ↦ ⟨n.id.lowered, n.amount.lowered⟩⟩

variable {ns ns' : Nuclides}

/-- Pairs of a nuclide and an amount are added to two materials that agree, and they agree again. -/
theorem push_of_alike (h : ns.lowered = ns'.lowered) {id id' amount amount' : Field}
    (hid : id.lowered = id'.lowered) (hamount : amount.lowered = amount'.lowered) :
    (ns.push (.of id amount)).lowered = (ns'.push (.of id' amount')).lowered := by
  simp only [lowered, push, Nuclide.of, Nuclides.mk.injEq, List.map_append, List.map_singleton,
    Field.lowered_asSignedFraction] at h ⊢
  rw [h, hid, hamount]

theorem isEmpty_lowered (ns : Nuclides) : ns.lowered.isEmpty = ns.isEmpty := by
  simp [isEmpty, lowered]

/-- The values of a material in lower case are its values in lower case. -/
theorem values_lowered (ns : Nuclides) :
    ns.lowered.values = ns.values.map (Option.map Value.lowered) := by
  simp only [values, lowered, List.flatMap_map, List.map_flatMap]
  refine List.flatMap_congr fun n _ ↦ ?_
  simp only [Nuclide.name, List.map_cons, List.map_nil, Option.map_some, Value.lowered,
    Field.signed_lowered, Field.toText?_lowered]
  cases n.id.toText? <;> rfl

end Nuclides

/-! ## Parameters -/

namespace ParticleList

/-- The particles without the letter case that they were written in. -/
def lowered (p : ParticleList) : ParticleList :=
  { p with token := p.token.map lowerString, upper := true }

theorem key_lowered (p : ParticleList) : p.lowered.key = p.key := rfl

/-- A particle symbol is known in capitals if and only if it is known in lower case. -/
theorem symbol?_lower (piece : List Char) :
    symbol? (lower piece) = (symbol? piece).map Char.toLower := by
  rw [symbol?, symbol?, trim_lower]
  rcases trim piece with _ | ⟨c, _ | ⟨d, cs⟩⟩
  · rfl
  · simp only [lower_cons, lower_nil, Lexer.isParticle_toLower c]
    split_ifs <;> rfl
  · rfl

/-- A list of particle symbols is known in capitals if and only if it is known in lower case. -/
theorem mapM_symbol?_lower (pieces : List (List Char)) :
    (pieces.map lower).mapM symbol? = (pieces.mapM symbol?).map (List.map Char.toLower) := by
  induction pieces with
  | nil => rfl
  | cons piece pieces ih =>
    rw [List.map_cons, List.mapM_cons, List.mapM_cons, symbol?_lower, ih]
    cases symbol? piece with
    | none => rfl
    | some c => cases pieces.mapM symbol? <;> rfl

/-- A particle list is read alike from a token in either case. -/
theorem lowered_parse? (token : String) :
    (parse? token).map lowered = (parse? (lowerString token)).map lowered := by
  unfold parse?
  rw [toList_lowerString]
  rcases htoken : token.toList with _ | ⟨c, body⟩
  · rfl
  by_cases hc : c = ':'
  · subst hc
    have hcolon : Char.toLower ':' = ':' := by decide
    have hcomma : CaseBlind (· == ',') := caseBlind_beq (by decide)
    simp only [lower_cons, hcolon, hcomma.splitWhere_lower, mapM_symbol?_lower, Option.map_map]
    cases (splitWhere (· == ',') body).mapM symbol? with
    | none => rfl
    | some symbols =>
      have hupper : (symbols.map Char.toLower).map Char.toUpper = symbols.map Char.toUpper := by
        rw [List.map_map]
        exact List.map_congr_left fun c _ ↦ toUpper_toLower c
      simp [lowered, hupper]
  · have hc' : c.toLower ≠ ':' := toLower_ne (by decide) hc
    simp [hc, hc']

end ParticleList

namespace Classifier

/-- The classifier in small letters and without layout. -/
def lowered (c : Classifier) : Classifier :=
  ⟨c.modifier.map Field.lowered, c.name.lowered, c.number.map Field.lowered,
    c.particles.map ParticleList.lowered, none⟩

/-- The word of a classifier in lower case is that word in lower case. -/
theorem word_lowered (c : Classifier) : c.lowered.word = lowerString c.word := by
  change c.name.lowered.toText?.getD "" = lowerString (c.name.toText?.getD "")
  rw [Field.toText?_lowered]
  cases c.name.toText? <;> rfl

/-- The number behind the word of a classifier has no letters. -/
theorem numberValue?_lowered (c : Classifier) : c.lowered.numberValue? = c.numberValue? := by
  cases hc : c.number <;> simp [numberValue?, lowered, hc]

/-- The key of a classifier is made of lower-case letters, so it is the same in either case. -/
theorem key_lowered (c : Classifier) : c.lowered.key = c.key := by
  rw [key, key, word_lowered, lowerString_lowerString, numberValue?_lowered]
  congr 1
  cases hc : c.particles <;> simp [lowered, hc, ParticleList.key_lowered]

end Classifier

namespace Parameter

/-- The parameter in small letters and without layout. -/
def lowered (p : Parameter) : Parameter :=
  ⟨p.classifier.lowered, p.separator.map fun _ ↦ .empty, p.values.lowered⟩

/-- A parameter is filed under the same key in either case. -/
theorem key_lowered (p : Parameter) : p.lowered.key = p.key := p.classifier.key_lowered

theorem lowered_closed (p : Parameter) : p.closed.lowered = p.lowered := by
  unfold closed
  split_ifs <;> rfl

end Parameter

namespace Parameters

/-- The parameters in small letters and without layout. -/
def lowered (ps : Parameters) : Parameters := { ps with params := ps.params.map Parameter.lowered }

variable {ps ps' : Parameters} {p p' : Parameter}

/-- The keys of the parameters are the same in either case. -/
theorem keys_lowered (ps : Parameters) : ps.lowered.keys = ps.keys := by
  simp [keys, lowered, Parameter.key_lowered]

/-- A parameter is inserted into two sets of parameters that agree, or refused by both as a
duplicate. -/
theorem agree_insert (h : ps.lowered = ps'.lowered) (hp : p.lowered = p'.lowered) :
    Except.Agree Eq (fun qs qs' ↦ qs.lowered = qs'.lowered) (ps.insert p) (ps'.insert p') := by
  have hkey : p.key = p'.key := by rw [← p.key_lowered, hp, p'.key_lowered]
  obtain ⟨hparams, hindex⟩ := Parameters.mk.inj h
  have hclosed (qs : List Parameter) :
      (mapLast Parameter.closed qs).map Parameter.lowered = qs.map Parameter.lowered := by
    induction qs with
    | nil => rfl
    | cons q qs ih =>
      cases qs with
      | nil => exact congrArg (fun r ↦ [r]) q.lowered_closed
      | cons r rs => exact congrArg (q.lowered :: ·) ih
  have hlength : ps.params.length = ps'.params.length := by
    simpa using congrArg List.length hparams
  unfold insert place?
  rw [hkey, show ps.index = ps'.index from hindex]
  split_ifs
  · exact .error rfl
  · refine .ok ?_
    simp only [lowered, List.map_append, hclosed, List.map_singleton, hp, hlength]
    rw [hparams]

end Parameters

/-! ## Geometries -/

namespace GeometryEntry

def lowered : GeometryEntry → GeometryEntry
  | leaf f => leaf f.lowered
  | run s => run s.lowered
  | branch b => (branch b).bare

end GeometryEntry

namespace Geometry

/-- The geometry in small letters and without layout. -/
def lowered (g : Geometry) : Geometry :=
  { g with entries := g.entries.map GeometryEntry.lowered, trailing := none }

theorem size_lowered (g : Geometry) : g.lowered.size = g.size := by simp [size, lowered]

/-- An entry of a geometry is lowered where it stands. -/
theorem entry?_lowered (g : Geometry) (id : Nat) :
    g.lowered.entry? id = (g.entry? id).map GeometryEntry.lowered := by
  simp [ entry?, lowered]

variable {g g' : Geometry}

/-- Geometries that differ in the case of letters have one size. -/
theorem size_alike (h : g.lowered = g'.lowered) : g.size = g'.size := by
  rw [← size_lowered, h, size_lowered]

/-- An entry is pushed to two geometries that agree, and they agree again. -/
theorem push_alike (h : g.lowered = g'.lowered) {e e' : GeometryEntry}
    (he : e.lowered = e'.lowered) : (g.push e).lowered = (g'.push e').lowered := by
  simp only [lowered, push, Geometry.mk.injEq] at h ⊢
  simp [h, he]

end Geometry

end TransportDeck
