/-!
# Paths

A path is a text; its components are compared in order, so that repeated slashes and inner dots
make no difference.
-/

namespace TransportDeck.Files

inductive Component where
  | root
  | here
  | up
  | name (n : String)
deriving Repr, DecidableEq

namespace Component

def rank : Component → Nat
  | root => 0
  | here => 1
  | up => 2
  | name _ => 3

/-- Whether the component stays on the way up. -/
def isStep : Component → Bool
  | here | up => true
  | root | name _ => false

def compare : Component → Component → Ordering
  | name a, name b => Ord.compare a b
  | a, b => Ord.compare a.rank b.rank

end Component

def splitSlashes : List Char → List (List Char)
  | [] => [[]]
  | c :: cs =>
    if c == '/' then [] :: splitSlashes cs
    else match splitSlashes cs with
      | [] => [[c]]
      | w :: ws => (c :: w) :: ws

def componentOf? (piece : List Char) : Option Component :=
  if piece.isEmpty || piece == ['.'] then none
  else if piece == ['.', '.'] then some .up
  else some (.name (String.ofList piece))

/-- A dot counts only at the start of a relative path. -/
def components (path : String) : List Component :=
  let cs := path.toList
  let pieces := splitSlashes cs
  let lead : List Component :=
    if cs.head? == some '/' then [.root]
    else if pieces.head? == some ['.'] then [.here]
    else []
  lead ++ pieces.filterMap componentOf?

def compareComponents : List Component → List Component → Ordering
  | [], [] => .eq
  | [], _ => .lt
  | _, [] => .gt
  | a :: as, b :: bs => (a.compare b).then (compareComponents as bs)

def comparePaths (a b : String) : Ordering := compareComponents (components a) (components b)

/-- A path read backwards, without the slashes and dots that add no component at its end. -/
def dropTail : List Char → List Char
  | '/' :: [] => ['/']
  | '/' :: cs => dropTail cs
  | '.' :: '/' :: cs => dropTail ('/' :: cs)
  | cs => cs
termination_by cs => cs.length

/-- The path without its last component; empty if there is none. -/
def parent (path : String) : String :=
  let r := dropTail path.toList.reverse
  if r == ['/'] then ""
  else String.ofList (dropTail (r.dropWhile (· != '/'))).reverse

/-- A path as seen from a directory. -/
def join (directory path : String) : String :=
  if path.toList.head? == some '/' || directory.isEmpty then path
  else if directory.toList.getLast? == some '/' then directory ++ path
  else directory ++ "/" ++ path

end TransportDeck.Files
