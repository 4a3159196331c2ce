/-
# Events

What a graph tells an observer while it works.  A search tells that it begins, each path
that it augments, and how it ended; an edit that comes too late is told as well.
-/
import MinCut.Search.Augment

namespace MinCut

/-- How much an event matters. -/
inductive Level where
  | trace
  | debug
  | warn
  deriving DecidableEq

/-- The name of a level. -/
def Level.name : Level → String
  | trace => "TRACE"
  | debug => "DEBUG"
  | warn => "WARN"

/-- Something that a graph tells an observer. -/
inductive Event where
  /-- A search begins on a network with that many nodes and edges. -/
  | solving (nodes edges : Nat)
  /-- A path was augmented. -/
  | augmented (a : Augmentation)
  /-- A search has ended with that flow; the counters include earlier searches. -/
  | found (flow : Int) (augmentations adoptions : Nat)
  /-- An edit came after the network was frozen. -/
  | rejectedEdit
  deriving DecidableEq

namespace Event

/-- How much the event matters. -/
def level : Event → Level
  | solving _ _ => .debug
  | augmented _ => .trace
  | found _ _ _ => .debug
  | rejectedEdit => .warn

/-- The words that announce the event. -/
def message : Event → String
  | solving _ _ => "solving maximum flow"
  | augmented _ => "augmented"
  | found _ _ _ => "maximum flow found"
  | rejectedEdit => "rejected structural edit after solve"

/-- What is told of a search that began as `s`, augmented `as` and ended as `s'`. -/
def ofSearch (s : Search) (as : List Augmentation) (s' : Search) : List Event :=
  solving s.residual.arcs.numNodes s.residual.arcs.numPairs ::
    (as.map augmented ++ [found s'.residual.flow s'.augmentations s'.adoptions])

end Event

end MinCut
