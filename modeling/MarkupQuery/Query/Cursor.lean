import MarkupQuery.Query.Scan

/-!
# Cursors

A cursor is the state of one step: it is given a context node and then advanced from one node that
passes the tests of the step to the next. Once it has no more node it stays exhausted until it is
given another context.
-/

namespace MarkupQuery.Query

open NodeTree Location

/-! ## The tests of a step -/

/-- The name of a record passes the name test of a step. -/
def acceptsName (d : Document) (r : Record) : NameTest → Bool
  | .any => true
  | .name s => d.strings.get r.nameId == s

/-- A record passes both tests of a step. End marks never do. -/
def acceptsRecord (d : Document) (step : Step) (r : Record) : Bool :=
  r.kind != .endMark && step.kind.all (fun kind => kind == r.kind) && acceptsName d r step.name

/-- A node passes both tests of a step. -/
def accepts (d : Document) (step : Step) (id : NodeId) : Bool :=
  (d.record? id).any (acceptsRecord d step)

/-! ## Cursors -/

/-- The state of a step. -/
inductive Cursor
  /-- A context has been given, and no node has been visited from it. -/
  | fresh (context : NodeId)
  /-- A node has been visited, and the scan is still ahead. -/
  | active (ahead : Scan)
  /-- There is no more node. -/
  | exhausted
  deriving DecidableEq, Repr

namespace Cursor

/-- The end of the chain of parents from a node on. The fuel bounds the length of the chain. -/
def climb (d : Document) : Nat → NodeId → Option NodeId
  | 0, _ => none
  | fuel + 1, id =>
    match d.record? id with
    | none => none
    | some r =>
      match r.parent with
      | none => some id
      | some parent => climb d fuel parent

/-- The node from which a step sets out: the root for a step that starts from it, otherwise the
context. -/
def origin (d : Document) (step : Step) (context : NodeId) : Option NodeId :=
  if step.fromRoot then climb d (d.recordCount + 1) context else some context

/-- The first node of a scan that passes the tests of a step. The fuel bounds the number of nodes
that fail. -/
def seek (d : Document) (step : Step) : Nat → Scan → Outcome Cursor
  | 0, _ => .astray
  | fuel + 1, scan =>
    match scan.next d with
    | .astray => .astray
    | .exhausted => .exhausted
    | .found id ahead =>
      match d.record? id with
      | none => .astray
      | some r =>
        if acceptsRecord d step r then .found id (.active ahead) else seek d step fuel ahead

/-- The next node of a step. The scan of a cursor that has visited no node is set up first. -/
def advance (d : Document) (step : Step) : Cursor → Outcome Cursor
  | .exhausted => .exhausted
  | .active ahead => seek d step (d.recordCount + 2) ahead
  | .fresh context =>
    match (origin d step context).bind (Scan.along d step.axis) with
    | none => .astray
    | some scan => seek d step (d.recordCount + 2) scan

end Cursor

end MarkupQuery.Query
