import MarkupQuery.Location.Compile

/-!
# A cache of compiled paths

A cache keeps the paths that were asked for most recently, up to its capacity, in the order of their
last use. A request looks the text up and, if it is not there, compiles it and puts it in. These are
two separate actions, so that the actions of several requests may come between each other. A text
that cannot be compiled changes nothing.
-/

namespace MarkupQuery.Query

open Location

/-- Compiled paths by their texts, the one used last in front. -/
structure PathCache where
  /-- How many paths the cache can hold. -/
  capacity : Nat
  /-- The paths, the one used last in front. -/
  entries : List (String × Path)
  deriving DecidableEq, Repr

namespace PathCache

/-- An empty cache for the given number of paths, which is at least one. -/
def withCapacity (n : Nat) : PathCache :=
  ⟨max 1 n, []⟩

/-- The capacity of a cache for which none is given. -/
def defaultCapacity : Nat :=
  256

/-- How many paths are in the cache. -/
def size (c : PathCache) : Nat :=
  c.entries.length

/-- No path is in the cache. -/
def isEmpty (c : PathCache) : Bool :=
  c.entries.isEmpty

/-- The cache without its paths. -/
def clear (c : PathCache) : PathCache :=
  { c with entries := [] }

/-- The entries for all texts but one. -/
def without (entries : List (String × Path)) (text : String) : List (String × Path) :=
  entries.filter fun entry => entry.1 != text

/-- The path of a text, if it is there. It is then the one used last. -/
def lookup (c : PathCache) (text : String) : Option Path × PathCache :=
  match c.entries.find? fun entry => entry.1 == text with
  | none => (none, c)
  | some entry => (some entry.2, { c with entries := entry :: without c.entries text })

/-- Put in the path of a text, in place of one that is there, as the one used last. The path whose
last use is longest ago goes if the cache is full. -/
def insert (c : PathCache) (text : String) (path : Path) : PathCache :=
  { c with entries := ((text, path) :: without c.entries text).take c.capacity }

/-- A path and where it came from. -/
inductive Source
  /-- The path was in the cache. -/
  | kept
  /-- The path was compiled, and put in the cache. -/
  | compiled
  deriving DecidableEq, Repr

/-- The path of a text, from the cache or else compiled. -/
def request (c : PathCache) (text : String) : Except CompileError (Path × Source) × PathCache :=
  match c.lookup text with
  | (some path, c) => (.ok (path, .kept), c)
  | (none, c) =>
    match Path.compile text with
    | .error e => (.error e, c)
    | .ok path => (.ok (path, .compiled), c.insert text path)

end PathCache

end MarkupQuery.Query
