import TransportDeck.Node.NumberStyle
import TransportDeck.Vocabulary

/-!
# Classifiers

The name of a data record or a parameter: perhaps a mark `*` or `+`, a word, a number and a list of
particles, as in `M4`, `F104:n,p`, `*TR2` or `IMP:N`. Its key is the same for every spelling of the
same name: the letters are in lower case and the particles in order.
-/

namespace TransportDeck

open Text

/-- Particle symbols in upper case, and how they were written. -/
structure ParticleList where
  /-- The text as read, with its colon. -/
  token : Option String
  symbols : List Char
  /-- The symbols that the text stands for. -/
  asRead : List Char
  upper : Bool
deriving Repr, DecidableEq

namespace ParticleList

/-- A piece of a list that is one particle symbol between blanks. -/
def symbol? (piece : List Char) : Option Char :=
  match trim piece with
  | [c] => if Vocabulary.isParticle c then some c else none
  | _ => none

/-- New letters are written in upper case unless most of the old ones were in lower case. -/
def prefersUpper (symbols : List Char) : Bool :=
  let letters := symbols.filter Char.isAlpha
  letters.isEmpty || (letters.filter Char.isUpper).length * 2 ≥ letters.length

/-- Reads the text behind a name, such as `:n,p`. -/
def parse? (token : String) : Option ParticleList :=
  match token.toList with
  | ':' :: body =>
    ((splitWhere (· == ',') body).mapM symbol?).map fun symbols =>
      let upper := symbols.map Char.toUpper
      ⟨some token, upper, upper, prefersUpper symbols⟩
  | _ => none

def new (symbols : List Char) : ParticleList := ⟨none, symbols.map Char.toUpper, [], true⟩

def set (p : ParticleList) (symbols : List Char) : ParticleList :=
  { p with symbols := symbols.map Char.toUpper }

def insertSorted (c : Char) : List Char → List Char
  | [] => [c]
  | d :: ds => if c ≤ d then c :: d :: ds else d :: insertSorted c ds

def sorted (cs : List Char) : List Char := cs.foldr insertSorted []

def joined (cs : List Char) : String := ",".intercalate (cs.map Char.toString)

/-- The symbols in lower case and in order. -/
def key (p : ParticleList) : String := joined (sorted (p.symbols.map Char.toLower))

def text (p : ParticleList) : String :=
  let fresh := ":" ++ joined (p.symbols.map fun c => if p.upper then c.toUpper else c.toLower)
  match p.token with
  | some token => if p.symbols == p.asRead then token else fresh
  | none => fresh

end ParticleList

structure Classifier where
  modifier : Option Field
  name : Field
  number : Option Field
  particles : Option ParticleList
  layout : Option Layout
deriving Repr

namespace Classifier

/-- A classifier of the given spellings; a number and particles may fail to read. -/
def ofTexts? (modifier : Option String) (name : String) (number particles : Option String)
    (layout : Option Layout) : Option Classifier := do
  let field (kind : ValueKind) (token : Option String) : Option (Option Field) :=
    match token with
    | some token => (Field.parse? token kind none).map some
    | none => some none
  let n ← field .int number
  let ps ← match particles with
    | some token => (ParticleList.parse? token).map some
    | none => some none
  return ⟨← field .text modifier, ← Field.parse? name .text none, n.map Field.neverPad, ps, layout⟩

def word (c : Classifier) : String := c.name.toText?.getD ""

def modifierText? (c : Classifier) : Option String := c.modifier.bind Field.toText?

def numberValue? (c : Classifier) : Option Int := c.number.bind Field.toInt?

def setNumber (c : Classifier) (n : Int) : Classifier :=
  { c with
    number := some <| match c.number with
      | some f => f.setValue (some (.int n))
      | none => (Field.int n).neverPad }

def mapParticles (c : Classifier) (g : ParticleList → ParticleList) : Classifier :=
  { c with particles := c.particles.map g }

def layoutOrEmpty (c : Classifier) : Layout := c.layout.getD .empty

/-- What makes two classifiers the same, such as `imp:n,p`. -/
def key (c : Classifier) : String :=
  lowerString c.word ++
  (match c.numberValue? with
    | some n => toString n
    | none => "") ++
  (match c.particles with
    | some p => ":" ++ p.key
    | none => "")

def insertWord (w : String) : List String → List String
  | [] => [w]
  | v :: vs => if w ≤ v then w :: v :: vs else v :: insertWord w vs

def sortedWords (ws : List String) : List String := ws.foldr insertWord []

/-- The key that a spelling such as `IMP:P,N` asks for. -/
def keyOf (text : String) : String :=
  let cs := lower (trim text.toList)
  match cutAt ':' cs with
  | (_, none) => String.ofList cs
  | (head, some particles) =>
    let symbols := (splitWhere (· == ',') particles).map fun p => String.ofList (trim p)
    String.ofList head ++ ":" ++ ",".intercalate (sortedWords symbols)

def render (t : Tolerance) (c : Classifier) : Rendered :=
  renderField t c.modifier ++ c.name.render t ++ renderField t c.number ++
    .ofText ((c.particles.map ParticleList.text).getD "" ++ layoutText c.layout)

def comments (c : Classifier) : List Comment := layoutComments c.layout

end Classifier

end TransportDeck
