import TransportDeck.Node.Nuclides
import TransportDeck.Node.Parameters
import TransportDeck.Proofs.Node.Layout
import TransportDeck.Proofs.Number.Reading
import TransportDeck.Proofs.Token.Lexing

/-!
# Sources

The source of a node is the text that it was read from: its tokens as they stand, and the layout
between them.  What a node needs for its values to be written as their tokens is kept apart: each
value is still the one that was read.
-/

namespace TransportDeck

/-! ## Values -/

namespace Value

/-- Equal to itself: anything but a float that is not a number. -/
def IsRegular : Value → Prop
  | real x => x.isNaN = false
  | _ => True

/-- A regular value is close to itself. -/
theorem IsRegular.close_self {v : Value} (h : v.IsRegular) (t : Tolerance) :
    v.close t v = true := by
  cases v with
  | int n => exact t.close_self (isNaN_ofInt n)
  | real x => exact t.close_self h
  | text s => exact beq_self_eq_true s

/-- The magnitude with the sign put back is close to the value. -/
theorem IsRegular.close_split {v : Value} (h : v.IsRegular) (t : Tolerance) :
    (if v.isNegative then v.magnitude.negate else v.magnitude).close t v = true := by
  cases v with
  | int n =>
    have hn : (if (int n).isNegative then (int n).magnitude.negate else (int n).magnitude) =
        int n := by
      simp only [isNegative, magnitude, negate, decide_eq_true_eq]
      split_ifs with hneg <;> congr 1 <;> omega
    rw [hn]
    exact t.close_self (isNaN_ofInt n)
  | real x =>
    simp only [isNegative, magnitude, negate, decide_eq_true_eq]
    split_ifs with hneg
    · exact if_pos (beq_neg_abs hneg)
    · exact if_pos (beq_abs h hneg)
  | text s => exact beq_self_eq_true s

end Value

/-! ## Fields -/

namespace Field

/-- The token and the layout behind it. -/
def source (f : Field) : String := f.token.getD "" ++ layoutText f.layout

/-- The value is the one that was read, whatever the tolerance. -/
def IsRead (f : Field) : Prop := ∀ t, f.hasChanged t = false

variable {f : Field} {token : String} {kind : ValueKind} {l : Option Layout}

/-- A field that was read is written as it was read. -/
theorem IsRead.render (h : f.IsRead) (t : Tolerance) : f.render t = .ofText f.source := by
  simp [Field.render, h t, source]

/-- Another layout does not make a field one that was not read. -/
theorem IsRead.setLayout (h : f.IsRead) (l : Option Layout) : (f.setLayout l).IsRead := h

theorem IsRead.neverPad (h : f.IsRead) : f.neverPad.IsRead := h

@[simp] theorem source_setLayout (f : Field) (l : Option Layout) :
    (f.setLayout l).source = f.token.getD "" ++ layoutText l := rfl

@[simp] theorem source_neverPad (f : Field) : f.neverPad.source = f.source := rfl

/-- An integer whose sign is kept apart, like the number of a surface. -/
structure IsIdentifier (f : Field) : Prop where
  kind_eq : f.kind = .int
  apart : f.signFlag.apart = true

/-- An integer with its sign apart is an identifier. -/
theorem isIdentifier_asSignedIdentifier (h : f.kind = .int) :
    f.asSignedIdentifier.IsIdentifier := by
  unfold asSignedIdentifier splitSign
  split <;> exact ⟨h, by simp [SignFlag.apart]⟩

/-- What a token is read as. -/
structure Parsed (token : String) (l : Option Layout) (f : Field) : Prop where
  token_eq : f.token = some token
  layout_eq : f.layout = l
  not_apart : f.signFlag.apart = false
  value_eq : ∃ v, f.value = some v ∧ f.asRead = some v ∧ v.IsRegular

/-- What is read from a token has its parts. -/
theorem parsed_of_parse? (h : parse? token kind l = some f) : Parsed token l f := by
  obtain ⟨v, hv, rfl⟩ := Option.map_eq_some_iff.mp h
  refine ⟨rfl, rfl, rfl, v, rfl, rfl, ?_⟩
  cases kind with
  | int =>
    obtain ⟨n, -, rfl⟩ := Option.map_eq_some_iff.mp hv
    trivial
  | real =>
    obtain ⟨x, hx, rfl⟩ := Option.map_eq_some_iff.mp hv
    exact Number.isNaN_of_readReal? hx
  | text =>
    obtain rfl := Option.some.inj hv
    trivial

namespace Parsed

/-- What was parsed from a token is a field that was read. -/
theorem isRead (h : Parsed token l f) : f.IsRead := by
  obtain ⟨v, hvalue, hread, hv⟩ := h.value_eq
  intro t
  simp [hasChanged, signed, h.not_apart, hvalue, hread, hv.close_self t]

/-- What was parsed from a token has the text of the token, and the layout behind it. -/
theorem source_eq (h : Parsed token l f) : f.source = token ++ layoutText l := by
  rw [source, h.token_eq, h.layout_eq]
  rfl

theorem setLayout (h : Parsed token l f) (l' : Option Layout) :
    Parsed token l' (f.setLayout l') := ⟨h.token_eq, rfl, h.not_apart, h.value_eq⟩

theorem neverPad (h : Parsed token l f) : Parsed token l f.neverPad :=
  ⟨h.token_eq, h.layout_eq, h.not_apart, h.value_eq⟩

/-- Keeping the sign apart does not change the value. -/
theorem isRead_splitSign (h : Parsed token l f) (flag : SignFlag) (hflag : flag.apart = true) :
    ({ f with signFlag := flag } : Field).splitSign.IsRead := by
  obtain ⟨v, hvalue, hread, hv⟩ := h.value_eq
  intro t
  have hclose := hv.close_split t
  simp only [splitSign, hvalue, hasChanged, signed, hflag, hread, Bool.true_and, Option.map_some]
  split_ifs at hclose ⊢ with hneg <;> simp [hclose]

/-- An identifier with its sign apart was read from the same token. -/
theorem isRead_asSignedIdentifier (h : Parsed token l f) : f.asSignedIdentifier.IsRead :=
  h.isRead_splitSign _ (by simp [SignFlag.apart])

/-- A fraction with its sign apart was read from the same token. -/
theorem isRead_asSignedFraction (h : Parsed token l f) : f.asSignedFraction.IsRead :=
  h.isRead_splitSign _ (by simp [SignFlag.apart])

end Parsed

@[simp] theorem token_splitSign (f : Field) : f.splitSign.token = f.token := by
  unfold splitSign
  split <;> rfl

@[simp] theorem layout_splitSign (f : Field) : f.splitSign.layout = f.layout := by
  unfold splitSign
  split <;> rfl

@[simp] theorem source_asSignedIdentifier (f : Field) : f.asSignedIdentifier.source = f.source := by
  simp [source, asSignedIdentifier]

@[simp] theorem source_asSignedFraction (f : Field) : f.asSignedFraction.source = f.source := by
  simp [source, asSignedFraction]

end Field

/-- The source of a field that may be missing. -/
def fieldSource (f : Option Field) : String := (f.map Field.source).getD ""

/-- An optional field that was read is written as it was read. -/
theorem renderField_of_isRead {f : Option Field} (h : ∀ g ∈ f, g.IsRead) (t : Tolerance) :
    (renderField t f).text = fieldSource f := by
  cases f with
  | none => rfl
  | some g => simp [renderField, (h g rfl).render, fieldSource]

/-! ## Runs -/

namespace Shorthand

variable {s : Shorthand}

/-- The count or the factor as written. -/
def countToken (s : Shorthand) : String := (s.count.bind (·.token)).getD ""

/-- The value before the token, if it belongs to the run. -/
def leadSource (s : Shorthand) : String := if s.hasLead then fieldSource s.members.head? else ""

/-- What stands behind the letters. -/
def behindSource (s : Shorthand) : String :=
  if s.kind.isInterpolation then layoutText s.midLayout ++ fieldSource s.members.getLast?
  else layoutText s.endLayout

def source (s : Shorthand) : String :=
  s.leadSource ++ (s.countToken ++ s.letters) ++ s.behindSource

/-- How many values the count stands for. -/
def places (s : Shorthand) : Nat :=
  s.members.length - (s.leadCount + if s.kind.isInterpolation then 1 else 0)

/-- The explicit values around the token, and its count, are those that were read. -/
structure IsRead (s : Shorthand) : Prop where
  lead : s.hasLead = true → ∃ f ∈ s.members.head?, f.IsRead
  last : s.kind.isInterpolation = true → ∃ f ∈ s.members.getLast?, f.IsRead
  count : s.kind ≠ .multiply → ∀ t, (s.renderCount t s.places).text = s.countToken
  factor : s.kind = .multiply →
    ∃ f token, s.count = some f ∧ f.kind = .real ∧ Field.Parsed token none f
  letter : s.kind = .jump → ∃ c ∈ s.letters.toList, Lexer.isJumpLetter c = true
  no_lead : s.kind = .jump → s.leadCount = 0
  bounds : s.kind.isInterpolation = true → s.leadCount < s.members.length

/-- The run is written as its source: a jump has places, the factor that the members give is written
as it was, and there is layout before the last bound of an interpolation. -/
def Faithful (s : Shorthand) : Prop :=
  match s.kind with
  | .jump => s.members ≠ []
  | .copies => True
  | .multiply => (s.renderFactor .standard).text = s.countToken
  | .linear | .logarithmic => s.midLayout.isSome = true

end Shorthand

/-! ## Lists -/

namespace Item

def source : Item → String
  | field f => f.source
  | run s => s.source

def IsRead : Item → Prop
  | field f => f.IsRead
  | run s => s.IsRead

def Faithful : Item → Prop
  | field _ => True
  | run s => s.Faithful

end Item

namespace FieldList

def source (l : FieldList) : String :=
  String.join (l.items.map Item.source) ++ layoutText l.tail

/-- Every item is as it was read, and no edit has touched the list. -/
structure IsRead (l : FieldList) : Prop where
  items : ∀ i ∈ l.items, i.IsRead
  not_rebuilt : l.rebuilt = false

def Faithful (l : FieldList) : Prop := ∀ i ∈ l.items, i.Faithful

end FieldList

/-! ## Classifiers and parameters -/

namespace Classifier

def source (c : Classifier) : String :=
  fieldSource c.modifier ++ c.name.source ++ fieldSource c.number ++
    ((c.particles.bind (·.token)).getD "" ++ layoutText c.layout)

structure IsRead (c : Classifier) : Prop where
  modifier : ∀ f ∈ c.modifier, f.IsRead
  name : c.name.IsRead
  number : ∀ f ∈ c.number, f.IsRead
  particles : ∀ p ∈ c.particles, p.text = p.token.getD ""

end Classifier

namespace Parameter

def source (p : Parameter) : String :=
  p.classifier.source ++ layoutText p.separator ++ p.values.source

structure IsRead (p : Parameter) : Prop where
  classifier : p.classifier.IsRead
  values : p.values.IsRead

/-- Nothing has to be put behind the parameter to make room for another one. -/
def IsApart (p : Parameter) : Prop := p.closed.values.tailOrEmpty = p.values.tailOrEmpty

end Parameter

namespace Parameters

/-- All parameters but the last make room for the next one. -/
def closeAll : List Parameter → List Parameter
  | [] => []
  | [p] => [p]
  | p :: ps => p.closed :: closeAll ps

def closed (ps : Parameters) : Parameters := { ps with params := closeAll ps.params }

/-- What making room leaves as it is, it leaves as it is in all parameters. -/
theorem map_closeAll {α : Type} {f : Parameter → α} (hf : ∀ p, f p.closed = f p)
    (ps : List Parameter) : (closeAll ps).map f = ps.map f := by
  fun_induction closeAll ps with
  | case1 => rfl
  | case2 => rfl
  | case3 p ps hne ih => rw [List.map_cons, List.map_cons, hf, ih]

def source (ps : Parameters) : String := String.join (ps.params.map Parameter.source)

def IsRead (ps : Parameters) : Prop := ∀ p ∈ ps.params, p.IsRead

/-- The parameters are written as their source: their lists are, and there is layout behind each
but the last. -/
structure Faithful (ps : Parameters) : Prop where
  values : ∀ p ∈ ps.params, p.values.Faithful
  apart : ∀ p ∈ ps.params.dropLast, p.IsApart

end Parameters

/-! ## Nuclides -/

namespace Nuclides

def source (ns : Nuclides) : String :=
  String.join (ns.pairs.map fun n ↦ n.id.source ++ n.amount.source)

def IsRead (ns : Nuclides) : Prop := ∀ n ∈ ns.pairs, n.id.IsRead ∧ n.amount.IsRead

/-- The pairs of a material that were read are written as they were read. -/
theorem IsRead.render {ns : Nuclides} (h : ns.IsRead) (t : Tolerance) :
    (ns.render t).text = ns.source := by
  rw [Nuclides.render, Rendered.text_concat, source, List.map_map]
  congr 1
  refine List.map_congr_left fun n hn ↦ ?_
  simp [Nuclide.render, (h n hn).1.render, (h n hn).2.render]

end Nuclides

end TransportDeck
