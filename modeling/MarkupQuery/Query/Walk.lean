import MarkupQuery.Query.Cursor

/-!
# Walks: the nodes that a path selects

A walk finds the nodes that a path selects from a start node, one at a time and each once. It goes
depth first: every node that a step visits is the context of the next step, and what the last step
visits is a result, unless the walk has given it before. Between two results a walk keeps one cursor
for each step that is still under way, the first step in front.

`enter` looks for the first result of some steps from a context, and `resume` goes on from the
cursors that it left.
-/

namespace MarkupQuery.Query

open NodeTree Location

/-! ## Depth-first search with a trail of cursors -/

/-- Advance a cursor until what lies below one of its nodes, as `below` finds it, has a result. The
fuel bounds the number of nodes that the cursor visits. -/
def drive (d : Document) (step : Step) (below : NodeId → Outcome (List Cursor)) :
    Nat → Cursor → Outcome (List Cursor)
  | 0, _ => .astray
  | fuel + 1, cursor =>
    match cursor.advance d step with
    | .astray => .astray
    | .exhausted => .exhausted
    | .found id cursor =>
      match below id with
      | .astray => .astray
      | .exhausted => drive d step below fuel cursor
      | .found result trail => .found result (cursor :: trail)

/-- The first result of some steps from a context that was not given before. When no step is left
the context is itself the result. -/
def enter (d : Document) (seen : Array Bool) : List Step → NodeId → Outcome (List Cursor)
  | [], id =>
    match seen[id.toNat]? with
    | none => .astray
    | some true => .exhausted
    | some false => .found id []
  | step :: steps, id => drive d step (enter d seen steps) (d.recordCount + 2) (.fresh id)

/-- The next result of some steps from a trail of cursors that was not given before: the steps that
are deepest under way are tried first. -/
def resume (d : Document) (seen : Array Bool) :
    List Step → List Cursor → Outcome (List Cursor)
  | step :: steps, cursor :: trail =>
    match resume d seen steps trail with
    | .astray => .astray
    | .found result trail => .found result (cursor :: trail)
    | .exhausted => drive d step (enter d seen steps) (d.recordCount + 2) cursor
  | _, _ => .exhausted

/-! ## Walks -/

/-- A path that is being followed through a document. -/
structure Walk where
  /-- The document. -/
  document : Document
  /-- The path. -/
  path : Path
  /-- The cursors of the steps under way, the first step in front. -/
  trail : List Cursor
  /-- For each record whether it was given as a result. -/
  seen : Array Bool
  /-- The result given last, if the walk is not exhausted. -/
  current : Option NodeId

namespace Walk

/-- A walk that has not set out from its start node. -/
def start (d : Document) (path : Path) (id : NodeId) : Walk where
  document := d
  path
  trail := if path.steps.isEmpty then [] else [.fresh id]
  seen := Array.replicate d.recordCount false
  current := none

/-- Go on to the next result, or to the end, where a walk stays; there is no walk if the search goes
astray. -/
def advance (w : Walk) : Option Walk :=
  let ⟨document, path, trail, seen, _⟩ := w
  match resume document seen path.steps trail with
  | .astray => none
  | .exhausted => some ⟨document, path, [], seen, none⟩
  | .found id trail => some ⟨document, path, trail, seen.setIfInBounds id.toNat true, some id⟩

/-- At most `fuel` further results, behind those already given, which stand reversed. -/
def restOnto (done : List NodeId) : Nat → Walk → Option (List NodeId × Walk)
  | 0, w => some (done.reverse, w)
  | fuel + 1, w =>
    match w.advance with
    | none => none
    | some w =>
      match w.current with
      | none => some (done.reverse, w)
      | some id => restOnto (id :: done) fuel w

/-- All further results, and the exhausted walk. -/
def rest? (w : Walk) : Option (List NodeId × Walk) :=
  restOnto [] (w.document.recordCount + 1) w

end Walk

end MarkupQuery.Query
