import TransportDeck.Node.Field
import TransportDeck.Node.NumberStyle

/-!
# Shorthand runs

A shorthand owns the values that it stands for. Unless it is chained to the run before it, its
first member is the value that is written before its token (the `3` in `3 4R`), so that writing it
gives both back.
-/

namespace TransportDeck

inductive ShorthandError where
  | followsJump (kind : String)
  | missingLead (kind : String)
  | invalidToken (token : String)
  | countTooLarge (token : String) (count : Int)
  | nonNumericBound
  | nonPositiveBound (first last : Float)
deriving Repr

namespace ShorthandError

def message : ShorthandError → String
  | followsJump kind => kind ++ " shortcut cannot follow a jump"
  | missingLead kind => kind ++ " shortcut has no value before it"
  | invalidToken token => "Invalid shortcut '" ++ token ++ "'"
  | countTooLarge token count =>
    "Shortcut '" ++ token ++ "' expands to " ++ toString count ++
      " values, more than the limit of " ++ toString Limits.shorthandCount
  | nonNumericBound => "Interpolation bounds must be numbers"
  | nonPositiveBound first last =>
    "Log interpolation needs positive bounds, got " ++ Decimal.plain first ++ " and " ++
      Decimal.plain last

def code (_ : ShorthandError) : Code := .malformedShorthand

end ShorthandError

/-- Where a run that is no jump takes its first value from. -/
inductive Lead where
  /-- The value before the token becomes the first member. -/
  | owned (f : Field)
  /-- The last value of the run before, which keeps it. -/
  | chained (v : Option Value)
deriving Repr

namespace Lead

def value : Lead → Option Value
  | owned f => f.signed
  | chained v => v

def kind : Lead → ValueKind
  | owned f => f.kind
  | chained _ => .real

def isChained : Lead → Bool
  | owned _ => false
  | chained _ => true

/-- The members that the lead brings along. -/
def members : Lead → List Field
  | owned f => [f]
  | chained _ => []

def anchor : Lead → Option Float
  | owned _ => none
  | chained v => v.bind Value.toReal?

end Lead

structure Shorthand where
  id : Nat
  kind : ShorthandKind
  members : List Field
  chained : Bool
  /-- The count, or the factor, as written. -/
  count : Option Field
  letters : String
  /-- The layout between an interpolation and its last bound. -/
  midLayout : Option Layout
  endLayout : Option Layout
  /-- The step of an interpolation, between logarithms for a logarithmic one. -/
  spacing : Option Float
  /-- The first value of a chained run. -/
  anchor : Option Float
  /-- A reconciled list has made the run for open places that nobody wrote. -/
  synthesized : Bool
  jump_of_synthesized : synthesized = true → kind = .jump
deriving Repr

namespace Shorthand

/-! ## Reading -/

def countKind : ShorthandKind → ValueKind
  | .multiply => .real
  | _ => .int

/-- A run without members, with the count and the letters that its token spells. -/
def ofToken (id : Nat) (kind : ShorthandKind) (token : String) (endLayout : Option Layout) :
    Except ShorthandError Shorthand :=
  let (count, letters) := kind.split token
  let bare : Shorthand :=
    ⟨id, kind, [], false, none, letters, none, endLayout, none, none, false, nofun⟩
  if count.isEmpty then .ok bare
  else match Field.parse? count (countKind kind) none with
    | some f => .ok { bare with count := some f.neverPad }
    | none => .error (.invalidToken token)

/-- The token, from its parts. -/
def written (s : Shorthand) : String := ((s.count.bind (·.token)).getD "") ++ s.letters

/-- The count as written, one if there is none, and at most the limit. -/
def countValue (s : Shorthand) : Except ShorthandError Nat :=
  match s.count.bind Field.toInt? with
  | none => .ok 1
  | some n =>
    if n < 0 then .error (.invalidToken s.written)
    else if n > Limits.shorthandCount then .error (.countTooLarge s.written n)
    else .ok n.toNat

def withLead (s : Shorthand) (lead : Lead) (rest : List Field) : Shorthand :=
  { s with
    members := lead.members ++ rest
    chained := lead.isChained
    anchor := lead.anchor }

/-- `nJ`: places left open. -/
def jump (id : Nat) (token : String) (endLayout : Option Layout) :
    Except ShorthandError Shorthand := do
  let s ← ofToken id .jump token endLayout
  let n ← s.countValue
  return { s with members := List.replicate n .jump }

/-- `nR`: copies of the lead. -/
def copies (id : Nat) (lead : Lead) (token : String) (endLayout : Option Layout) :
    Except ShorthandError Shorthand := do
  let s ← ofToken id .copies token endLayout
  let n ← s.countValue
  let template ← match lead with
    | .owned f => .ok f
    | .chained (some v) => .ok (Field.new (some v) v.kind)
    | .chained none => .error (.followsJump "repeat")
  if lead.value.isNone then .error (.followsJump "repeat")
  else return s.withLead lead (List.replicate n (template.withLayout .gap))

def needNumber (kind : String) (v : Option Value) : Except ShorthandError Float :=
  match v with
  | none => .error (.followsJump kind)
  | some v => match v.toReal? with
    | none => .error .nonNumericBound
    | some x => .ok x

/-- `xM`: the lead multiplied. -/
def multiply (id : Nat) (lead : Lead) (token : String) (endLayout : Option Layout) :
    Except ShorthandError Shorthand := do
  let s ← ofToken id .multiply token endLayout
  match s.count.bind Field.toReal? with
  | none => .error (.invalidToken token)
  | some factor =>
    let base ← needNumber "multiply" lead.value
    let product := (Field.new (some (.real (base * factor))) lead.kind).withLayout .gap
    return s.withLead lead [product]

/-- The power of ten with a given logarithm. -/
def powerOfTen (x : Float) : Float := Float.pow 10.0 x

/-- The scale on which the steps of an interpolation are even. -/
def onScale (kind : ShorthandKind) (x : Float) : Float :=
  if kind = .logarithmic then x.log10 else x

def offScale (kind : ShorthandKind) (x : Float) : Float :=
  if kind = .logarithmic then powerOfTen x else x

/-- `nI` and `nILOG`: even steps from the lead to a last bound. -/
def interpolate (id : Nat) (kind : ShorthandKind) (lead : Lead) (token : String)
    (midLayout : Option Layout) (last : Field) : Except ShorthandError Shorthand := do
  let s ← ofToken id kind token none
  let n ← s.countValue
  let first ← needNumber "interpolate" lead.value
  match last.toReal? with
  | none => .error .nonNumericBound
  | some finish =>
    if kind = .logarithmic && (first <= 0.0 || finish <= 0.0) then
      .error (.nonPositiveBound first finish)
    else
      let low := onScale kind first
      let spacing := (onScale kind finish - low) / (Float.ofNat n + 1.0)
      let steps := (List.range n).map fun i =>
        let x := offScale kind (low + spacing * Float.ofNat (i + 1))
        (Field.new (some (.real x)) lead.kind).withLayout .gap
      return { s.withLead lead (steps ++ [last]) with midLayout, spacing := some spacing }

/-- A run of any kind. All but jumps need a lead, and an interpolation needs a last bound; without
them there is nothing. -/
def build? (id : Nat) (kind : ShorthandKind) (lead : Option Lead) (token : String)
    (layout : Option Layout) (last : Option Field) : Option (Except ShorthandError Shorthand) :=
  match kind, lead, last with
  | .jump, _, _ => some (jump id token layout)
  | .copies, some lead, _ => some (copies id lead token layout)
  | .multiply, some lead, _ => some (multiply id lead token layout)
  | .linear, some lead, some last | .logarithmic, some lead, some last =>
    some (interpolate id kind lead token layout last)
  | _, _, _ => none

/-- A jump for open places that no written run claims. -/
def newJump (id : Nat) (members : List Field) : Shorthand :=
  ⟨id, .jump, members, false, none, ShorthandKind.jump.letters, none, some .gap, none, none, true,
    fun _ => rfl⟩

/-! ## Layout behind the run -/

/-- The layout behind the whole run, which an interpolation keeps on its last bound. -/
def trailing? (s : Shorthand) : Option Layout :=
  if s.kind.isInterpolation then s.members.getLast?.bind (·.layout) else s.endLayout

def mapLast (g : Field → Field) : List Field → List Field
  | [] => []
  | [f] => [g f]
  | f :: fs => f :: mapLast g fs

def setTrailing (s : Shorthand) (l : Option Layout) : Shorthand :=
  if s.kind.isInterpolation then { s with members := mapLast (·.setLayout l) s.members }
  else { s with endLayout := l }

/-- Whether the first member is the value before the token. -/
def hasLead (s : Shorthand) : Bool := !s.chained && s.kind != .jump

/-! ## Which values fit a run -/

/-- The value one step from `edge`. -/
def stepFrom? (s : Shorthand) (edge : Float) (forward : Bool) : Option Float :=
  s.spacing.bind fun spacing =>
    let step := if forward then spacing else -spacing
    if s.kind = .logarithmic then
      if edge <= 0.0 then none else some (powerOfTen (edge.log10 + step))
    else some (edge + step)

/-- Whether two neighbours are one step apart. -/
def stepFits (t : Tolerance) (s : Shorthand) (edge candidate : Field) (forward : Bool) : Bool :=
  match edge.toReal?, candidate.toReal? with
  | some x, some y => match s.stepFrom? x forward with
    | some expected => t.close expected y
    | none => false
  | _, _ => false

def isNonzero (f : Field) : Bool :=
  match f.toReal? with
  | some x => x != 0.0
  | none => false

/-- Whether `candidate` lengthens a run of `size` values whose outermost member is `edge`. -/
def accepts (t : Tolerance) (s : Shorthand) (edge candidate : Field) (forward : Bool)
    (size : Nat) : Bool :=
  match s.kind with
  | .jump => candidate.isJump
  | .copies => match edge.signed, candidate.signed with
    | some a, some b => a.close t b
    | _, _ => false
  | .multiply =>
    !s.chained && size < 2 && isNonzero (if forward then edge else candidate) &&
      candidate.toReal?.isSome
  | .linear | .logarithmic => stepFits t s edge candidate forward

/-- Whether `first` can go on from the value before the run. -/
def continuesFrom (t : Tolerance) (s : Shorthand) (anchor first : Field) : Bool :=
  match s.kind with
  | .jump => false
  | .multiply => isNonzero anchor
  | _ => s.accepts t anchor first true 1

/-- The shortest run that is worth a shorthand. -/
def minimumMembers (s : Shorthand) (chained : Bool) : Nat :=
  let lead := if chained then 0 else 1
  match s.kind with
  | .jump => 1
  | .copies | .multiply => 1 + lead
  | .linear | .logarithmic => 2 + lead

/-- The shorthand over a new run, chained to a value before it or not. -/
def rebuilt (s : Shorthand) (members : List Field) (anchor : Option Field) : Shorthand :=
  { s with
    members
    chained := anchor.isSome && s.kind != .jump
    anchor := anchor.bind Field.toReal? }

/-! ## Writing -/

def renderCount (t : Tolerance) (s : Shorthand) (n : Nat) : Rendered :=
  match s.count with
  | some f => (f.setValue (some (.int n))).render t
  | none => .ofText (if n = 1 then "" else toString n)

/-- The factor between the base and the last member. -/
def factor (s : Shorthand) : Float :=
  let base := if s.chained then s.anchor else s.members.head?.bind Field.toReal?
  match base, s.members.getLast?.bind Field.toReal? with
  | some b, some p => if b != 0.0 then p / b else 1.0
  | _, _ => 1.0

def renderFactor (t : Tolerance) (s : Shorthand) : Rendered :=
  match s.count with
  | some f => (f.setValue (some (.real s.factor))).render t
  | none => (Field.real s.factor).render t

def leadCount (s : Shorthand) : Nat := if s.hasLead then 1 else 0

def renderLead (t : Tolerance) (s : Shorthand) : Rendered :=
  match s.members with
  | f :: _ => if s.hasLead then f.render t else .empty
  | [] => .empty

/-- A run as its token and the explicit values around it. -/
def render (t : Tolerance) (s : Shorthand) : Rendered :=
  let behind := Rendered.ofText (layoutText s.endLayout)
  let letters := Rendered.ofText s.letters
  match s.kind with
  | .jump =>
    if s.members.isEmpty then .empty
    else s.renderCount t s.members.length ++ letters ++ behind
  | .copies =>
    s.renderLead t ++ s.renderCount t (s.members.length - s.leadCount) ++ letters ++ behind
  | .multiply => s.renderLead t ++ s.renderFactor t ++ letters ++ behind
  | .linear | .logarithmic =>
    let mid := Rendered.ofText ((s.midLayout.map Layout.text).getD " ")
    let last := match s.members.getLast? with
      | some f => f.render t
      | none => .empty
    s.renderLead t ++ s.renderCount t (s.members.length - (s.leadCount + 1)) ++ letters ++
      mid ++ last

def comments (s : Shorthand) : List Comment :=
  (if s.hasLead then ((s.members.head?.map Field.comments).getD []) else []) ++
  layoutComments s.midLayout ++
  (if s.kind.isInterpolation then ((s.members.getLast?.map Field.comments).getD []) else []) ++
  layoutComments s.endLayout

end Shorthand

end TransportDeck
