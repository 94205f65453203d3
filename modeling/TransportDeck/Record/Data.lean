import TransportDeck.Node.Nuclides
import TransportDeck.Node.Parameters
import TransportDeck.Node.Reconcile

/-!
# Data records

A data record: its classifier, perhaps a keyword, then values or the nuclides of a material, and
parameters.
-/

namespace TransportDeck

inductive DataBody where
  | values (l : FieldList)
  | nuclides (ns : Nuclides)
deriving Repr

namespace DataBody

def render (t : Tolerance) : DataBody → Rendered
  | values l => l.render t
  | nuclides ns => ns.render t

def comments : DataBody → List Comment
  | values l => l.comments
  | nuclides ns => ns.comments

/-- The values in order; a place left open has none. -/
def entries : DataBody → List (Option Value)
  | values l => l.values
  | nuclides ns => ns.values

end DataBody

structure DataRecord where
  leading : Option Layout
  classifier : Classifier
  keyword : Option Field
  body : DataBody
  parameters : Parameters
deriving Repr

namespace DataRecord

def keywordText? (d : DataRecord) : Option String := d.keyword.bind Field.toText?

def values (d : DataRecord) : List (Option Value) := d.body.entries

/-- Replaces the values of a record that is not a material. -/
def setValues? (t : Tolerance) (values : List (Option Value)) (d : DataRecord) :
    Option DataRecord :=
  match d.body with
  | .values l => some { d with body := .values (l.setValues t values) }
  | .nuclides _ => none

def setNumber (d : DataRecord) (n : Int) : DataRecord :=
  { d with classifier := d.classifier.setNumber n }

def setParticles (d : DataRecord) (symbols : List Char) : DataRecord :=
  { d with classifier := d.classifier.mapParticles (·.set symbols) }

def setParameters (d : DataRecord) (ps : Parameters) : DataRecord := { d with parameters := ps }

def render (t : Tolerance) (d : DataRecord) : Rendered :=
  .ofText (layoutText d.leading) ++ d.classifier.render t ++
    renderField t d.keyword ++ d.body.render t ++ d.parameters.render t

def comments (d : DataRecord) : List Comment :=
  layoutComments d.leading ++ d.classifier.comments ++
    fieldComments d.keyword ++ d.body.comments ++ d.parameters.comments

end DataRecord

end TransportDeck
