import MarkupQuery.Location.Step
import MarkupQuery.NodeTree.Document

/-!
# Scans along an axis

A scan is what a step has still to visit along its axis: a stretch of the node table, a stretch of
the list of children, or a chain of parents. It names at most a few numbers, so a step can stop
after any node and go on later. `Scan.along` gives the scan of an axis from a context node, and
`Scan.next` takes the next node from it, whatever the tests of the step.

The tables of a finished document answer every question that a scan puts. A scan that would leave
the tables goes astray, and says so.
-/

namespace MarkupQuery.Query

open NodeTree Location

/-- What comes of looking for one more node; `σ` is what is left to do behind it. -/
inductive Outcome (σ : Type)
  /-- A table was asked for an entry that it does not have, or the search did not end. -/
  | astray
  /-- There is no more node. -/
  | exhausted
  /-- A node, and what is left behind it. -/
  | found (id : NodeId) (ahead : σ)
  deriving DecidableEq, Repr

/-- The nodes that are still to be visited along an axis. -/
inductive Scan
  /-- One node, or none. -/
  | single (node : Option NodeId)
  /-- A node and all elements around it, nearest first; or none. -/
  | chain (node : Option NodeId)
  /-- The attributes among the `left` records from `next` on, up to the first that is none. -/
  | attributes (next left : Nat)
  /-- The `left` records from `next` on, attributes excepted. -/
  | forward (next left : Nat)
  /-- The `left` records at the start of the table, backwards, except attributes and the elements
  around `below`. -/
  | backward (left : Nat) (below : NodeId)
  /-- The `left` entries of the list of children from `next` on. -/
  | run (next left : Nat)
  /-- The `left` entries of the list of children from `first` on, backwards. -/
  | runBack (first left : Nat)
  deriving DecidableEq, Repr

namespace Scan

/-! ## Taking the next node -/

/-- The next of the `left` records from `next` on that is no attribute. -/
def nextForward (d : Document) (next : Nat) : Nat → Outcome Scan
  | 0 => .exhausted
  | left + 1 =>
    match d.record? next.toUInt32 with
    | none => .astray
    | some r =>
      if r.isAttribute then nextForward d (next + 1) left
      else .found next.toUInt32 (.forward (next + 1) left)

/-- The last of the first `left` records that is neither an attribute nor an element around `below`.
The element around `below` is met before all others around it; from then on the scan looks for the
one around that element. -/
def nextBackward (d : Document) : Nat → NodeId → Outcome Scan
  | 0, _ => .exhausted
  | left + 1, below =>
    match d.record? left.toUInt32, d.record? below with
    | some r, some lower =>
      if r.isAttribute then nextBackward d left below
      else if lower.parent == some left.toUInt32 then nextBackward d left left.toUInt32
      else .found left.toUInt32 (.backward left below)
    | _, _ => .astray

/-- The next node of a scan. -/
def next (d : Document) : Scan → Outcome Scan
  | .single none => .exhausted
  | .single (some id) => .found id (.single none)
  | .chain none => .exhausted
  | .chain (some id) =>
    match d.record? id with
    | none => .astray
    | some r => .found id (.chain r.parent)
  | .attributes _ 0 => .exhausted
  | .attributes next (left + 1) =>
    match d.record? next.toUInt32 with
    | none => .astray
    | some r =>
      if r.isAttribute then .found next.toUInt32 (.attributes (next + 1) left) else .exhausted
  | .forward next left => nextForward d next left
  | .backward left below => nextBackward d left below
  | .run _ 0 => .exhausted
  | .run next (left + 1) =>
    match d.children[next]? with
    | none => .astray
    | some id => .found id (.run (next + 1) left)
  | .runBack _ 0 => .exhausted
  | .runBack first (left + 1) =>
    match d.children[first + left]? with
    | none => .astray
    | some id => .found id (.runBack first left)

/-! ## The scan of an axis -/

/-- The place of a node among the `size` entries of the list of children from `low` on, which
ascend. -/
def position? (d : Document) (id : NodeId) (low size : Nat) : Option Nat :=
  if size = 0 then none
  else
    match d.children[low + size / 2]? with
    | none => none
    | some middle =>
      if middle = id then some (low + size / 2)
      else if middle < id then position? d id (low + size / 2 + 1) (size - size / 2 - 1)
      else position? d id low (size / 2)
termination_by size

/-- The scan over the children of the element around a node that `choose` picks: it is given where
their run begins, how long it is, and the place of the node in the list of children. A node that is
not among those children has no siblings. -/
def siblings (d : Document) (id : NodeId) (choose : Nat → Nat → Nat → Scan) : Option Scan :=
  match d.parent? id with
  | none => some (.single none)
  | some parent =>
    match d.record? parent with
    | none => none
    | some r =>
      let first := r.children.first.toNat
      let length := r.children.length.toNat
      if first + length ≤ d.children.size then
        match position? d id first length with
        | none => some (.single none)
        | some place => some (choose first length place)
      else none

/-- The scan of an axis from a context node, which has to be in the table. -/
def along (d : Document) (axis : Axis) (context : NodeId) : Option Scan :=
  match d.record? context with
  | none => none
  | some r =>
    let id := context.toNat
    let stop := r.stop.toNat
    match axis with
    | .self => some (.single (some context))
    | .parent => some (.single r.parent)
    | .child =>
      let first := r.children.first.toNat
      let length := r.children.length.toNat
      if first + length ≤ d.children.size then some (.run first length) else none
    | .attribute => some (.attributes (id + 1) (stop - (id + 1)))
    | .descendant => some (.forward (id + 1) (stop - (id + 1)))
    | .descendantOrSelf => some (.forward id (stop - id))
    | .ancestor => some (.chain r.parent)
    | .ancestorOrSelf => some (.chain (some context))
    | .following => some (.forward stop (d.recordCount - stop))
    | .preceding => some (.backward id context)
    | .followingSibling =>
      siblings d context fun first length place => .run (place + 1) (first + length - (place + 1))
    | .precedingSibling => siblings d context fun first _ place => .runBack first (place - first)

end Scan

end MarkupQuery.Query
