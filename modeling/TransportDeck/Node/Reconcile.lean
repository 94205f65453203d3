import TransportDeck.Node.FieldList

/-!
# Reconciling edited lists

A list is edited as a flat sequence of entries, each of which remembers the run that it came from.
The list is then built anew: every run of the old list takes root at its first entry that is left
and grows from there over the neighbours that still fit it. The entries are only ever cut into
segments, so none is lost and none changes its place.
-/

namespace TransportDeck

/-- A value of the flat sequence, with the run that it came from and its place in it. -/
structure ListEntry where
  field : Field
  origin : Option (Nat × Nat)
deriving Repr

namespace ListEntry

def new (f : Field) : ListEntry := ⟨f, none⟩

def runId? (e : ListEntry) : Option Nat := e.origin.map (·.1)

/-- Whether a run may take the entry: it came from no other run. -/
def isFreeFor (id : Nat) (e : ListEntry) : Bool :=
  match e.runId? with
  | none => true
  | some other => other == id

end ListEntry

/-- A stretch of entries that no run has claimed, or that one has. -/
inductive Segment where
  | free (entries : List ListEntry)
  | claimed (template : Shorthand) (chained : Bool) (entries : List ListEntry)
deriving Repr

namespace Segment

def entries : Segment → List ListEntry
  | free es => es
  | claimed _ _ es => es

def freeUnlessEmpty (es : List ListEntry) : List Segment := if es.isEmpty then [] else [free es]

end Segment

namespace Reconcile

/-- Takes entries from the front while each fits its inner neighbour. Gives what was taken, in the
order it was met, and what is left. -/
def grow (t : Tolerance) (s : Shorthand) (forward : Bool) :
    (edge : Field) → (size : Nat) → List ListEntry → List ListEntry × List ListEntry
  | _, _, [] => ([], [])
  | edge, size, e :: es =>
    if e.isFreeFor s.id && s.accepts t edge e.field forward size then
      let (taken, rest) := grow t s forward e.field (size + 1) es
      (e :: taken, rest)
    else ([], e :: es)

def canRootAt (s : Shorthand) (f : Field) : Bool :=
  match s.kind with
  | .jump => f.isJump
  | .copies => !f.isJump
  | _ => f.toReal?.isSome

/-- The run that takes root at `root`, between the unclaimed entries before it (last first) and
behind it. `anchor` is the value right before the root, if a run has claimed it. -/
def rootAt? (t : Tolerance) (s : Shorthand) (anchor : Option Field) (before : List ListEntry)
    (root : ListEntry) (behind : List ListEntry) : Option (List Segment) :=
  if !canRootAt s root.field then none
  else
    let chained := s.chained && before.isEmpty && match anchor with
      | some a => s.continuesFrom t a root.field
      | none => false
    let (back, left) := if chained then ([], before) else grow t s false root.field 1 before
    let (forth, right) := grow t s true root.field (back.length + 1) behind
    let run := back.reverse ++ root :: forth
    if run.length < s.minimumMembers chained then none
    else some (Segment.freeUnlessEmpty left.reverse ++ .claimed s chained run ::
      Segment.freeUnlessEmpty right)

/-- Tries the entries of the run in a free segment one after the other. -/
def rootIn? (t : Tolerance) (s : Shorthand) (anchor : Option Field) (before : List ListEntry) :
    List ListEntry → Option (List Segment)
  | [] => none
  | e :: es =>
    if e.runId? == some s.id then
      match rootAt? t s anchor before e es with
      | some segments => some segments
      | none => rootIn? t s anchor (e :: before) es
    else rootIn? t s anchor (e :: before) es

/-- Places a run in the first free segment in which it can take root. `anchor` is the last value
of the claimed segment before. -/
def place? (t : Tolerance) (s : Shorthand) (anchor : Option Field) :
    List Segment → Option (List Segment)
  | [] => none
  | .claimed r c es :: rest =>
    (place? t s (es.getLast?.map (·.field)) rest).map (.claimed r c es :: ·)
  | .free es :: rest =>
    match rootIn? t s anchor [] es with
    | some segments => some (segments ++ rest)
    | none => (place? t s none rest).map (.free es :: ·)

/-! ## Runs that are gone -/

/-- Sets the layout behind the last entry that came from a run, if there is one. -/
def setLastOf (id : Nat) (l : Layout) : List ListEntry → Option (List ListEntry)
  | [] => none
  | e :: es =>
    match setLastOf id l es with
    | some es => some (e :: es)
    | none =>
      if e.runId? == some id then some ({ e with field := e.field.setLayout (some l) } :: es)
      else none

def setLastIn (id : Nat) (l : Layout) : List Segment → Option (List Segment)
  | [] => none
  | segment :: rest =>
    match setLastIn id l rest with
    | some rest => some (segment :: rest)
    | none => match segment with
      | .free es => (setLastOf id l es).map (.free · :: rest)
      | .claimed .. => none

/-- A run without a place leaves the layout behind it to its last value that is left. -/
def handOverLayout (s : Shorthand) (segments : List Segment) : List Segment :=
  match s.endLayout with
  | some l => (setLastIn s.id l segments).getD segments
  | none => segments

def placeOrDissolve (t : Tolerance) (segments : List Segment) (s : Shorthand) : List Segment :=
  match place? t s none segments with
  | some segments => segments
  | none => handOverLayout s segments

/-! ## Open places -/

/-- Cuts free entries into stretches of open places, which become new jumps, and the others. The
jumps are numbered from `id` on. -/
def claimJumps (id : Nat) (entries : List ListEntry) : List Segment × Nat :=
  match entries with
  | [] => ([], id)
  | e :: es =>
    if e.field.isJump then
      let (rest, next) := claimJumps (id + 1) (es.dropWhile (·.field.isJump))
      (.claimed (.newJump id []) false (e :: es.takeWhile (·.field.isJump)) :: rest, next)
    else
      let (rest, next) := claimJumps id (es.dropWhile (!·.field.isJump))
      (.free (e :: es.takeWhile (!·.field.isJump)) :: rest, next)
termination_by entries.length
decreasing_by
  all_goals
    simp only [List.length_cons]
    exact Nat.lt_succ_of_le (List.dropWhile_sublist _).length_le

def claimAllJumps (id : Nat) : List Segment → List Segment × Nat
  | [] => ([], id)
  | .claimed s c es :: rest =>
    let (rest, next) := claimAllJumps id rest
    (.claimed s c es :: rest, next)
  | .free es :: rest =>
    let (here, id) := claimJumps id es
    let (rest, next) := claimAllJumps id rest
    (here ++ rest, next)

/-- Open places at the end that nobody wrote go without saying. -/
def dropImplied (segments : List Segment) : List Segment :=
  match segments.getLast? with
  | some (.claimed s _ _) => if s.synthesized then segments.dropLast else segments
  | _ => segments

/-! ## The new list -/

/-- The items of the segments; `before` is the value in front of them. -/
def itemsOf (before : Option Field) : List Segment → List Item
  | [] => []
  | .free es :: rest =>
    es.map (fun e => .field e.field) ++ itemsOf (es.getLast?.map (·.field)) rest
  | .claimed s chained es :: rest =>
    .run (s.rebuilt (es.map (·.field)) (if chained then before else none)) ::
      itemsOf (es.getLast?.map (·.field)) rest

/-- Blanks behind the last item go. -/
def clearBlankTrailing (i : Item) : Item :=
  match i.trailing? with
  | some l => if l.isBlank then i.setTrailing (some .empty) else i
  | none => i

end Reconcile

namespace FieldList

open Reconcile

/-- The values in order, each with the run that it comes from. -/
def entries (l : FieldList) : List ListEntry :=
  l.items.flatMap fun
    | .field f => [.new f]
    | .run s => s.members.mapIdx fun i f => ⟨f, some (s.id, i)⟩

/-- Builds the list anew from edited entries. -/
def reconcile (t : Tolerance) (entries : List ListEntry) (l : FieldList) : FieldList :=
  if entries.isEmpty then { l with items := [] }
  else
    let runs := l.items.filterMap Item.shorthand?
    let placed := runs.foldl (placeOrDissolve t) [.free entries]
    let (segments, next) := claimAllJumps l.nextId placed
    let items := itemsOf none (dropImplied segments)
    { l with items, nextId := next, rebuilt := true }.mapLastItem clearBlankTrailing

/-- Values set one by one over the entries; further ones become new entries. -/
def overwrite (kind : ValueKind) : List ListEntry → List (Option Value) → List ListEntry
  | _, [] => []
  | e :: es, v :: vs => { e with field := e.field.setValue v } :: overwrite kind es vs
  | [], v :: vs => .new (.new v kind) :: overwrite kind [] vs

/-- Replaces the values; each entry keeps its place. -/
def setValues (t : Tolerance) (values : List (Option Value)) (l : FieldList) : FieldList :=
  let kind := (l.last?.map (·.kind)).getD .real
  l.reconcile t (overwrite kind l.entries values)

/-- Sets one value; behind the last one it is appended. -/
def setAt (t : Tolerance) (i : Nat) (v : Option Value) (l : FieldList) : FieldList :=
  let vs := l.values
  l.setValues t (if i < vs.length then vs.set i v else vs ++ [v])

def removeAt (t : Tolerance) (i : Nat) (l : FieldList) : FieldList :=
  l.reconcile t (l.entries.eraseIdx i)

def swap (t : Tolerance) (i k : Nat) (l : FieldList) : FieldList :=
  l.reconcile t <| match l.entries[i]?, l.entries[k]? with
    | some a, some b => (l.entries.set i b).set k a
    | _, _ => l.entries

/-- Puts a field in front of the value at a place, or behind the last one. -/
def insertAt (t : Tolerance) (i : Nat) (f : Field) (l : FieldList) : FieldList :=
  l.reconcile t (l.entries.insertIdx (min i l.entries.length) (.new f))

end FieldList

end TransportDeck
