import TransportDeck.Proofs.Grammar.OwnLists
import TransportDeck.Proofs.Node.Bare
import TransportDeck.Proofs.Number.Integers

/-!
# Items as they are written

A list is expanded from left to right, item by item, and all that an item needs of those before it
is the last value.  The runs that the reader builds of shorthands have the values that the items
contribute, behind the value that they take from the list.
-/

namespace TransportDeck

/-! ## Items -/

/-- An item of a list as it is written. -/
inductive WrittenItem where
  | value (v : Value)
  | jump (n : Nat)
  | copies (n : Nat)
  | multiply (factor : Float)
  | linear (n : Nat) (last : Float)
  | logarithmic (n : Nat) (last : Float)
deriving Repr

deriving instance DecidableEq for Value

namespace WrittenItem

/-- Where the `i`th of `n + 1` even steps from `first` to `last` leads. -/
def evenPoint (first last : Float) (n i : Nat) : Float :=
  first + (last - first) / (Float.ofNat n + 1.0) * Float.ofNat i

/-- The same with even steps between the logarithms. -/
def logPoint (first last : Float) (n i : Nat) : Float :=
  Float.pow 10.0 (evenPoint first.log10 last.log10 n i)

/-- The `n` points in front of a bound, and the bound. -/
def pointsTo (last : Float) (n : Nat) (point : Nat → Float) : List (Option Value) :=
  (List.range n).map (fun i ↦ some (.real (point (i + 1)))) ++ [some (.real last)]

/-- The values that an item contributes behind a last value.  Where there is none, there is nothing
to copy, to multiply or to start from. -/
def contribution? (before : Option Value) : WrittenItem → Option (List (Option Value))
  | value v => some [some v]
  | jump n => some (List.replicate n none)
  | copies n => before.map fun v ↦ List.replicate n (some v)
  | multiply factor => (before.bind Value.toReal?).map fun x ↦ [some (.real (x * factor))]
  | linear n last => (before.bind Value.toReal?).map fun x ↦ pointsTo last n (evenPoint x last n)
  | logarithmic n last => (before.bind Value.toReal?).bind fun x ↦
      if x <= 0.0 || last <= 0.0 then none else some (pointsTo last n (logPoint x last n))

/-! ## Tokens -/

/-- The count in front of the letters, one if there is none. -/
def writtenCount (token : String) : Nat :=
  let digits := token.toList.takeWhile Char.isDigit
  if digits.isEmpty then 1 else Decimal.natOfDigits digits

/-- No shorthand stands for more values than the limit. -/
def count? (token : String) : Option Nat :=
  if writtenCount token ≤ Limits.shorthandCount then some (writtenCount token) else none

/-- The number in front of the last letter. -/
def factor? (token : String) : Option Float :=
  Number.readReal? (String.ofList token.toList.dropLast)

def behindLayout (ts : List Token) : List Token := ts.dropWhile Token.isLayout

def number? : List Token → Option (Float × List Token)
  | [] => none
  | t :: ts =>
    if t.kind.isNumber then (Number.readReal? t.text).map fun x ↦ (x, behindLayout ts) else none

/-- A shorthand, from its token and the tokens behind it: an interpolation has its last bound
there. -/
def ofShorthand? (kind : ShorthandKind) (token : String) (ts : List Token) :
    Option (WrittenItem × List Token) :=
  match kind with
  | .jump => (count? token).map fun n ↦ (jump n, ts)
  | .copies => (count? token).map fun n ↦ (copies n, ts)
  | .multiply => (factor? token).map fun x ↦ (multiply x, ts)
  | .linear => (count? token).bind fun n ↦ (number? ts).map fun (x, us) ↦ (linear n x, us)
  | .logarithmic => (count? token).bind fun n ↦ (number? ts).map fun (x, us) ↦ (logarithmic n x, us)

/-- The item in front, and the tokens behind it and its layout. -/
def front? (g : Grammar) : List Token → Option (WrittenItem × List Token)
  | [] => none
  | t :: ts => match t.kind with
    | .number | .zero => (number? (t :: ts)).map fun (x, us) ↦ (value (.real x), us)
    | .shorthand kind =>
      if g.allows .shorthands then ofShorthand? kind t.text (behindLayout ts) else none
    | _ => some (value (.text t.text), behindLayout ts)

/-- Whether a parameter stands in front: a word, perhaps behind a mark, and its equals sign if it
needs one. -/
def parameterInFront (g : Grammar) (ts : List Token) : Bool :=
  match (if ts.head?.any Production.isMark then ts.tail else ts) with
  | [] => false
  | t :: us => Production.isWord t &&
      (!g.needsEquals || (us.dropWhile Production.isBeforeEquals).head?.any (·.kind == .equals))

/-- Whether a list goes on: with a number, a shorthand, or a word that no parameter starts with. -/
def inFront (g : Grammar) : List Token → Bool
  | [] => false
  | t :: ts => match t.kind with
    | .number | .zero | .shorthand _ => true
    | _ => !parameterInFront g (t :: ts) && Production.isItem g t

/-- The values with those of an item behind them. -/
def expand? (vs : List (Option Value)) (r : WrittenItem × List Token) :
    Option (List (Option Value) × List Token) :=
  (r.1.contribution? vs.getLast?.join).map fun ws ↦ (vs ++ ws, r.2)

variable {kind : ShorthandKind} {token : String} {vs : List (Option Value)} {ts : List Token}

theorem length_behindLayout_le (ts : List Token) : (behindLayout ts).length ≤ ts.length :=
  (List.dropWhile_sublist _).length_le

theorem length_number? {r : Float × List Token} (h : number? ts = some r) :
    r.2.length < ts.length := by
  cases ts with
  | nil => cases h
  | cons t us =>
    rw [number?] at h
    split_ifs at h
    obtain ⟨x, -, rfl⟩ := Option.map_eq_some_iff.mp h
    exact Nat.lt_succ_of_le (length_behindLayout_le us)

theorem length_ofShorthand? {r : WrittenItem × List Token}
    (h : ofShorthand? kind token ts = some r) : r.2.length ≤ ts.length := by
  cases kind with
  | jump | copies | multiply =>
    obtain ⟨_, -, rfl⟩ := Option.map_eq_some_iff.mp h
    exact le_rfl
  | linear | logarithmic =>
    obtain ⟨n, -, h⟩ := Option.bind_eq_some_iff.mp h
    obtain ⟨_, hnumber, rfl⟩ := Option.map_eq_some_iff.mp h
    exact (length_number? hnumber).le

/-- An item has a token of its own. -/
theorem length_front? {g : Grammar} {r : WrittenItem × List Token} (h : front? g ts = some r) :
    r.2.length < ts.length := by
  cases ts with
  | nil => cases h
  | cons t us =>
    have hbehind := length_behindLayout_le us
    rw [front?] at h
    split at h
    · obtain ⟨_, hnumber, rfl⟩ := Option.map_eq_some_iff.mp h
      exact length_number? hnumber
    · obtain ⟨_, hnumber, rfl⟩ := Option.map_eq_some_iff.mp h
      exact length_number? hnumber
    · split_ifs at h
      exact Nat.lt_succ_of_le ((length_ofShorthand? h).trans hbehind)
    · obtain rfl := Option.some.inj h
      exact Nat.lt_succ_of_le hbehind

/-- All shorthands but jumps need a value before them. -/
theorem expand?_eq_none_of_no_value (hkind : kind ≠ .jump) (h : vs.getLast?.join = none) :
    (ofShorthand? kind token ts).bind (expand? vs) = none := by
  rw [Option.bind_eq_none_iff]
  intro r hr
  cases kind with
  | jump => exact absurd rfl hkind
  | copies | multiply =>
    obtain ⟨_, -, rfl⟩ := Option.map_eq_some_iff.mp hr
    rw [expand?, h]
    rfl
  | linear | logarithmic =>
    obtain ⟨n, -, hr⟩ := Option.bind_eq_some_iff.mp hr
    obtain ⟨_, -, rfl⟩ := Option.map_eq_some_iff.mp hr
    rw [expand?, h]
    rfl

/-- A count beyond the limit is none. -/
theorem ofShorthand?_eq_none_of_count (hkind : kind ≠ .multiply)
    (h : Limits.shorthandCount < writtenCount token) : ofShorthand? kind token ts = none := by
  have hnone : count? token = none := if_neg (Nat.not_le.mpr h)
  cases kind with
  | multiply => exact absurd rfl hkind
  | jump | copies | linear | logarithmic => rw [ofShorthand?, hnone]; rfl

end WrittenItem

open WrittenItem

/-! ## Expanding -/

/-- The next item is read and expanded behind the values so far. -/
inductive ExpansionStep (g : Grammar) :
    List (Option Value) × List Token → List (Option Value) × List Token → Prop where
  | item {vs ws : List (Option Value)} {ts us : List Token} {i : WrittenItem}
      (goes_on : inFront g ts = true) (read : front? g ts = some (i, us))
        (values : i.contribution? vs.getLast?.join = some ws) :
      ExpansionStep g (vs, ts) (vs ++ ws, us)

/-- The tokens up to `us`, expanded from left to right, give the values. -/
def Expands (g : Grammar) (ts : List Token) (vs : List (Option Value)) (us : List Token) : Prop :=
  Relation.ReflTransGen (ExpansionStep g) ([], ts) (vs, us)

variable {g : Grammar} {vs : List (Option Value)} {ts : List Token}

theorem expansionStep_iff {s : List (Option Value) × List Token} : ExpansionStep g (vs, ts) s ↔
    inFront g ts = true ∧ (front? g ts).bind (expand? vs) = some s := by
  constructor
  · rintro ⟨hfront, hread, hvalues⟩
    exact ⟨hfront, by rw [hread, Option.bind_some, expand?, hvalues]; rfl⟩
  · rintro ⟨hfront, h⟩
    obtain ⟨r, hread, h⟩ := Option.bind_eq_some_iff.mp h
    obtain ⟨ws, hvalues, rfl⟩ := Option.map_eq_some_iff.mp h
    exact .item hfront hread hvalues

theorem ExpansionStep.rightUnique (g : Grammar) : Relator.RightUnique (ExpansionStep g) := by
  rintro ⟨vs, ts⟩ s s' h h'
  exact Option.some.inj ((expansionStep_iff.mp h).2.symm.trans (expansionStep_iff.mp h').2)

theorem length_of_expand {s : List (Option Value) × List Token}
    (h : (front? g ts).bind (expand? vs) = some s) : s.2.length < ts.length := by
  obtain ⟨r, hread, h⟩ := Option.bind_eq_some_iff.mp h
  obtain ⟨ws, -, rfl⟩ := Option.map_eq_some_iff.mp h
  exact length_front? hread

/-- An expansion that goes no further is the only one. -/
theorem Expands.eq_of_stuck {vs' : List (Option Value)} {us us' : List Token}
    (h : Expands g ts vs us) (hstuck : ∀ s, ¬ExpansionStep g (vs, us) s) (h' : Expands g ts vs' us')
    (hstuck' : ∀ s, ¬ExpansionStep g (vs', us') s) : vs' = vs ∧ us' = us := by
  have same {a b : List (Option Value) × List Token} (hstuck : ∀ s, ¬ExpansionStep g a s)
      (hsteps : Relation.ReflTransGen (ExpansionStep g) a b) : b = a := by
    obtain rfl | ⟨c, hstep, -⟩ := hsteps.cases_head
    · rfl
    · exact absurd hstep (hstuck c)
  obtain hsteps | hsteps := h.total_of_right_unique (ExpansionStep.rightUnique g) h'
  · exact Prod.mk.inj (same hstuck hsteps)
  · exact Prod.mk.inj (same hstuck' hsteps).symm

/-! ## Runs -/

namespace Shorthand

variable {id : Nat} {kind : ShorthandKind} {token : String} {l : Option Layout}

/-- A run may stand for as many values as it says, up to the limit. -/
theorem toOption_countValue {s : Shorthand} {n : Nat}
    (h : s.count.bind Field.toInt? = some (n : Int)) :
    s.countValue.toOption = if n ≤ Limits.shorthandCount then some n else none := by
  have hnat : ¬(n : Int) < 0 := by omega
  unfold countValue
  rw [h]
  simp only [hnat, if_false]
  by_cases hn : n ≤ Limits.shorthandCount
  · rw [if_neg (by omega), if_pos hn]
    rfl
  · rw [if_pos (by omega), if_neg hn]
    rfl

/-- A token gives a run with the count that is written, unless the count is out of bounds. -/
theorem ofToken_counted (id : Nat) (token : String) (l : Option Layout) (hkind : kind ≠ .multiply) :
    (∃ s, ofToken id kind token l = .ok s ∧ s.countValue.toOption = count? token) ∨
      (∃ e, ofToken id kind token l = .error e) ∧ count? token = none := by
  have hsplit : kind.split token = (String.ofList (token.toList.takeWhile Char.isDigit),
      String.ofList (token.toList.dropWhile Char.isDigit)) := by
    cases kind <;> first | rfl | exact absurd rfl hkind
  have hint : countKind kind = .int := by cases kind <;> first | rfl | exact absurd rfl hkind
  have hdigits : ∀ c ∈ token.toList.takeWhile Char.isDigit, c.isDigit = true := fun c hc ↦
    List.mem_takeWhile_imp hc
  have hcount : count? token = if (token.toList.takeWhile Char.isDigit).isEmpty then some 1
      else if Decimal.natOfDigits (token.toList.takeWhile Char.isDigit) ≤ Limits.shorthandCount then
        some (Decimal.natOfDigits (token.toList.takeWhile Char.isDigit)) else none := by
    unfold count? writtenCount
    dsimp only
    split_ifs <;> first | rfl | contradiction
  unfold ofToken
  rw [hsplit, hint, hcount]
  dsimp only
  by_cases hempty : token.toList.takeWhile Char.isDigit = []
  · rw [hempty]
    exact .inl ⟨_, rfl, rfl⟩
  · have hsome : ¬(String.ofList (token.toList.takeWhile Char.isDigit)).isEmpty = true := by
      simpa using hempty
    have hlimit : (Limits.shorthandCount : Int) ≤ Number.maxInt := by decide
    rw [if_neg hsome, if_neg (by simpa using hempty), Field.parse?, Field.readValue?,
      Number.readInt?_digits hempty hdigits]
    split_ifs with hmax hfits hfits
    · exact .inl ⟨_, rfl, (toOption_countValue rfl).trans (if_pos hfits)⟩
    · exact .inl ⟨_, rfl, (toOption_countValue rfl).trans (if_neg hfits)⟩
    · omega
    · exact .inr ⟨⟨_, rfl⟩, rfl⟩

/-- The factor is all that stands in front of the last letter. -/
theorem ofToken_factor (id : Nat) (token : String) (l : Option Layout) :
    (∃ s, ofToken id .multiply token l = .ok s ∧ s.count.bind Field.toReal? = factor? token) ∨
      (∃ e, ofToken id .multiply token l = .error e) ∧ factor? token = none := by
  have hsplit : (ShorthandKind.multiply.split token).1 = String.ofList token.toList.dropLast := rfl
  unfold ofToken factor?
  dsimp only
  rw [hsplit]
  by_cases hempty : token.toList.dropLast = []
  · rw [hempty]
    exact .inl ⟨_, rfl, rfl⟩
  · rw [if_neg (by simpa using hempty), Field.parse?, show countKind .multiply =
      .real from rfl, Field.readValue?]
    cases Number.readReal? (String.ofList token.toList.dropLast) with
    | none => exact .inr ⟨⟨_, rfl⟩, rfl⟩
    | some x => exact .inl ⟨_, rfl, rfl⟩

/-! ### What runs stand for -/

variable {s : Shorthand} {lead : Lead}

theorem values_withLead (rest : List Field) :
    (s.withLead lead rest).values = lead.members.map Field.signed ++ rest.map Field.signed :=
  List.map_append

/-- The values of the run that is built, if one is. -/
def values? (e : Except ShorthandError Shorthand) : Option (List (Option Value)) :=
  e.toOption.map values

/-- A run that is built from its count. -/
theorem values?_counted (kind : ShorthandKind) (hkind : kind ≠ .multiply)
    {f : Shorthand → Nat → Except ShorthandError Shorthand}
    {k : Nat → Option (List (Option Value))} (hf : ∀ s n, values? (f s n) = k n) :
    values? (ofToken id kind token l >>= fun s ↦ s.countValue >>= f s) = (count? token).bind k := by
  obtain ⟨s, hs, hcount⟩ | ⟨⟨e, he⟩, hnone⟩ := ofToken_counted id token l hkind
  · rw [hs, ← hcount]
    change values? (s.countValue >>= f s) = _
    cases hn : s.countValue with
    | error e => rfl
    | ok n => exact hf s n
  · rw [he, hnone]
    rfl

theorem values_jump (before : Option Value) : values? (jump id token l) =
    (count? token).bind fun n ↦ (WrittenItem.jump n).contribution? before :=
  values?_counted .jump (by decide) fun _ _ ↦ congrArg some List.map_replicate

theorem values_copies : values? (copies id lead token l) = ((count? token).bind fun n ↦
    (WrittenItem.copies n).contribution? lead.value).map (lead.members.map Field.signed ++ ·) := by
  rw [Option.map_bind, copies_eq]
  refine values?_counted .copies (by decide) fun s n ↦ ?_
  cases hv : lead.value with
  | none => rfl
  | some v =>
    refine congrArg some ((values_withLead _).trans ?_)
    rw [List.map_replicate, Field.signed_withLayout, Lead.signed_template hv]

theorem toOption_needNumber (name : String) (v : Option Value) :
    (needNumber name v).toOption = v.bind Value.toReal? := by
  cases v with
  | none => rfl
  | some v => cases v <;> rfl

/-- The product is a real number if the lead is one. -/
theorem values_multiply (hreal : ∀ x, lead.value.bind Value.toReal? = some x → lead.kind = .real) :
    values? (multiply id lead token l) = ((factor? token).bind fun x ↦
      (WrittenItem.multiply x).contribution? lead.value).map
          (lead.members.map Field.signed ++ ·) := by
  have hbase := toOption_needNumber "multiply" lead.value
  obtain ⟨s, hs, hcount⟩ | ⟨⟨e, he⟩, hnone⟩ := ofToken_factor id token l
  · rw [multiply, hs, ← hcount]
    dsimp only [bind, Except.bind]
    cases s.count.bind Field.toReal? with
    | none => rfl
    | some factor =>
      change values? (needNumber "multiply" lead.value >>= _) = _
      cases hx : lead.value.bind Value.toReal? with
      | none =>
        obtain ⟨e, he⟩ := Except.toOption_eq_none.mp (hbase.trans hx)
        rw [he, Option.bind_some, contribution?, hx]
        rfl
      | some x =>
        rw [Except.toOption_eq_some.mp (hbase.trans hx), hreal x hx,
          Option.bind_some, contribution?, hx]
        exact congrArg some ((values_withLead (s := s) _).trans rfl)
  · rw [multiply, he, hnone]
    rfl

/-- The points lie evenly on the scale of the run. -/
theorem values_interpolate (hkind : kind ≠ .multiply) {mid : Option Layout} {last : Field}
    {b : Float} (hlast : last.signed = some (.real b))
    (hreal : ∀ x, lead.value.bind Value.toReal? = some x → lead.kind = .real) :
    values? (interpolate id kind lead token mid last) = ((count? token).bind fun n ↦
      (lead.value.bind Value.toReal?).bind fun x ↦
        if kind = .logarithmic && (x <= 0.0 || b <= 0.0) then none
        else some (pointsTo b n fun i ↦
          offScale kind (evenPoint (onScale kind x) (onScale kind b) n i))).map
              (lead.members.map Field.signed ++ ·) := by
  have hfinish : last.toReal? = some b := by rw [Field.toReal?, hlast]; rfl
  rw [Option.map_bind]
  refine values?_counted kind hkind fun s n ↦ ?_
  rw [hfinish]
  have hfirst := toOption_needNumber "interpolate" lead.value
  cases hx : lead.value.bind Value.toReal? with
  | none =>
    obtain ⟨e, he⟩ := Except.toOption_eq_none.mp (hfirst.trans hx)
    rw [he]
    rfl
  | some x =>
    rw [Except.toOption_eq_some.mp (hfirst.trans hx), hreal x hx]
    change values? (if _ then _ else _) = Option.map _ (if _ then _ else _)
    split_ifs with hbounds
    · rfl
    · refine congrArg some ((values_withLead (s := s) _).trans ?_)
      rw [List.map_append, List.map_map, List.map_singleton, hlast]
      rfl

end Shorthand

end TransportDeck
