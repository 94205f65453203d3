import TransportDeck.Input.Card
import TransportDeck.Token.Lexer

/-!
# Grammars

Each kind of record has a grammar: the vocabulary that its words are looked up in, and the rules
that it is put together from.
-/

namespace TransportDeck

inductive RecordKind where
  | cell
  | surface
  | data
  | read
deriving Repr, DecidableEq

def RecordKind.name : RecordKind → String
  | cell => "cell"
  | surface => "surface"
  | data => "data"
  | read => "read"

/-- What a grammar may allow. -/
inductive Rule where
  /-- Blanks, comments and marks of continuation. -/
  | layout
  | numbers
  | shorthands
  | classifier
  /-- Pairs of a key and its values at the end. -/
  | parameters
  /-- Number, material and density of a cell. -/
  | cellHeader
  | geometry
  /-- Number, transformation and type of a surface. -/
  | surfaceHeader
  /-- Words among the values. -/
  | dataItems
  | nuclides
  /-- The request for another file. -/
  | request
deriving Repr, DecidableEq

structure Grammar where
  kind : RecordKind
  mode : LexMode
  rules : List Rule
  /-- The values of a parameter stand behind an equals sign. -/
  needsEquals : Bool
deriving Repr, DecidableEq

namespace Grammar

def cell : Grammar :=
  ⟨.cell, .cell,
    [.layout, .numbers, .cellHeader, .geometry, .shorthands, .classifier, .parameters], false⟩

def surface : Grammar :=
  ⟨.surface, .surface, [.layout, .numbers, .surfaceHeader, .shorthands], false⟩

def data : Grammar :=
  ⟨.data, .data,
    [.layout, .numbers, .classifier, .shorthands, .dataItems, .nuclides, .parameters], true⟩

def read : Grammar := ⟨.read, .read, [.layout, .request, .classifier, .parameters], false⟩

def ofBlock : Block → Grammar
  | .cell => cell
  | .surface => surface
  | .data => data

/-- The grammar of a card: that of its block, unless it asks for a file. -/
def ofCard (c : Card) : Grammar := if c.isRead then read else ofBlock c.block

def allows (g : Grammar) (r : Rule) : Bool := g.rules.contains r

end Grammar

end TransportDeck
