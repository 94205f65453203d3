import TransportDeck.Proofs.Node.Echo
import TransportDeck.Record.Basic

/-!
# Sources of records

The source of a record is put together from those of its parts.  Which records are written as their
source is known part by part.
-/

namespace TransportDeck

theorem Echoes.field {f : Option Field} (h : ∀ g ∈ f, g.IsRead) :
    Echoes True (renderField .standard f).text (fieldSource f) :=
  .of_eq (renderField_of_isRead h .standard)

theorem Field.IsRead.echoes {f : Field} (h : f.IsRead) :
    Echoes True (f.render .standard).text f.source :=
  .of_eq (congrArg Rendered.text (h.render .standard))

/-! ## Cells -/

namespace CellRecord

/-- The record with room between its parameters. -/
def closed (c : CellRecord) : CellRecord := { c with parameters := c.parameters.closed }

def source (c : CellRecord) : String :=
  layoutText c.leading ++ c.number.source ++ c.material.source ++ fieldSource c.density ++
    c.geometry.source ++ c.parameters.source

structure IsRead (c : CellRecord) : Prop where
  number : c.number.IsRead
  material : c.material.IsRead
  density : ∀ f ∈ c.density, f.IsRead
  geometry : ∃ tree, c.geometry.IsTree tree ∧ tree.IsRead
  parameters : c.parameters.IsRead
  not_pending : c.pending = none

structure Faithful (c : CellRecord) : Prop where
  geometry : c.geometry.Faithful
  parameters : c.parameters.Faithful

theorem IsRead.echoes {c : CellRecord} (h : c.IsRead) :
    Echoes c.Faithful (c.closed.render .standard).text c.source := by
  obtain ⟨tree, htree, hread⟩ := h.geometry
  have hwritten : c.closed.writtenGeometry = c.geometry := by
    rw [writtenGeometry, closed, h.not_pending]
  have hparts := (((((Echoes.refl (layoutText c.leading)).append h.number.echoes).append
    h.material.echoes).append (.field h.density)).append (htree.echoes hread)).append
    h.parameters.echoes_closed
  simp only [render, hwritten, Rendered.text_append, Rendered.text_ofText]
  refine hparts.congr ⟨fun hc ↦ ⟨hc.1.2, hc.2⟩, fun hc ↦ ?_⟩
  exact ⟨⟨⟨⟨⟨trivial, trivial⟩, trivial⟩, trivial⟩, hc.geometry⟩, hc.parameters⟩

end CellRecord

/-! ## Surfaces -/

namespace SurfaceRecord

def source (s : SurfaceRecord) : String :=
  layoutText s.leading ++ fieldSource s.modifier ++ s.number.source ++ fieldSource s.transform ++
    s.type.source ++ s.constants.source

structure IsRead (s : SurfaceRecord) : Prop where
  modifier : ∀ f ∈ s.modifier, f.IsRead
  number : s.number.IsRead
  transform : ∀ f ∈ s.transform, f.IsRead
  type : s.type.IsRead
  constants : s.constants.IsRead

theorem IsRead.echoes {s : SurfaceRecord} (h : s.IsRead) :
    Echoes s.constants.Faithful (s.render .standard).text s.source := by
  have hparts := (((((Echoes.refl (layoutText s.leading)).append (.field h.modifier)).append
    h.number.echoes).append (.field h.transform)).append h.type.echoes).append h.constants.echoes
  simp only [render, Rendered.text_append, Rendered.text_ofText]
  exact hparts.congr (by simp)

end SurfaceRecord

/-! ## Data -/

namespace DataBody

def source : DataBody → String
  | values l => l.source
  | nuclides ns => ns.source

def IsRead : DataBody → Prop
  | values l => l.IsRead
  | nuclides ns => ns.IsRead

def Faithful : DataBody → Prop
  | values l => l.Faithful
  | nuclides _ => True

theorem IsRead.echoes {b : DataBody} (h : b.IsRead) :
    Echoes b.Faithful (b.render .standard).text b.source := by
  cases b with
  | values l => exact FieldList.IsRead.echoes h
  | nuclides ns => exact .of_eq (Nuclides.IsRead.render h .standard)

end DataBody

namespace DataRecord

def closed (d : DataRecord) : DataRecord := { d with parameters := d.parameters.closed }

def source (d : DataRecord) : String :=
  layoutText d.leading ++ d.classifier.source ++ fieldSource d.keyword ++ d.body.source ++
    d.parameters.source

structure IsRead (d : DataRecord) : Prop where
  classifier : d.classifier.IsRead
  keyword : ∀ f ∈ d.keyword, f.IsRead
  body : d.body.IsRead
  parameters : d.parameters.IsRead

structure Faithful (d : DataRecord) : Prop where
  body : d.body.Faithful
  parameters : d.parameters.Faithful

theorem IsRead.echoes {d : DataRecord} (h : d.IsRead) :
    Echoes d.Faithful (d.closed.render .standard).text d.source := by
  have hparts := ((((Echoes.refl (layoutText d.leading)).append
    (.of_eq (h.classifier.render .standard))).append (.field h.keyword)).append
    h.body.echoes).append h.parameters.echoes_closed
  simp only [render, Rendered.text_append, Rendered.text_ofText]
  refine hparts.congr ⟨fun hc ↦ ⟨hc.1.2, hc.2⟩, fun hc ↦ ?_⟩
  exact ⟨⟨⟨⟨trivial, trivial⟩, trivial⟩, hc.body⟩, hc.parameters⟩

end DataRecord

/-! ## Requests for files -/

namespace ReadRecord

def closed (r : ReadRecord) : ReadRecord := { r with parameters := r.parameters.closed }

def source (r : ReadRecord) : String :=
  layoutText r.leading ++ r.keyword.source ++ r.parameters.source

structure IsRead (r : ReadRecord) : Prop where
  keyword : r.keyword.IsRead
  parameters : r.parameters.IsRead

theorem IsRead.echoes {r : ReadRecord} (h : r.IsRead) :
    Echoes r.parameters.Faithful (r.closed.render .standard).text r.source := by
  have hparts := ((Echoes.refl (layoutText r.leading)).append h.keyword.echoes).append
    h.parameters.echoes_closed
  simp only [render, Rendered.text_append, Rendered.text_ofText]
  exact hparts.congr (by simp)

end ReadRecord

/-! ## Records -/

namespace Record

/-- The record with room between its parameters. -/
def closed : Record → Record
  | cell c => cell c.closed
  | surface s => surface s
  | data d => data d.closed
  | read r => read r.closed
  | verbatim v => verbatim v

/-- The text that the record was read from. -/
def source : Record → String
  | cell c => c.source
  | surface s => s.source
  | data d => d.source
  | read r => r.source
  | verbatim v => v.text

def IsRead : Record → Prop
  | cell c => c.IsRead
  | surface s => s.IsRead
  | data d => d.IsRead
  | read r => r.IsRead
  | verbatim _ => True

/-- Every jump stands for at least one place, every factor that is worked out anew is written as it
was, every interpolation has layout before its last bound, and there is layout behind every
parameter but the last. -/
def Faithful : Record → Prop
  | cell c => c.Faithful
  | surface s => s.constants.Faithful
  | data d => d.Faithful
  | read r => r.parameters.Faithful
  | verbatim _ => True

theorem IsRead.echoes {r : Record} (h : r.IsRead) : Echoes r.Faithful r.closed.text r.source := by
  cases r with
  | cell c => exact CellRecord.IsRead.echoes h
  | surface s => exact SurfaceRecord.IsRead.echoes h
  | data d => exact DataRecord.IsRead.echoes h
  | read r => exact ReadRecord.IsRead.echoes h
  | verbatim v => exact .refl v.text

end Record

end TransportDeck
