/-
# Augmenting a path

Where the trees meet, the way from the root of the source tree down to the meeting, the
arc between the trees, and the way up to the root of the sink tree form an augmenting
path.  As much flow as the path can take is pushed along it.  Every tree edge and every
terminal that this saturates leaves an orphan behind: first those of the source tree from
the meeting up to the root, then those of the sink tree.
-/
import MinCut.Forest.Growth
import MinCut.Search.Basic

namespace MinCut

/-! ## Paths -/

/-- The way from a node up to its root. -/
structure Ascent where
  /-- The nodes below the root, bottom up, each with the arc to its parent. -/
  steps : List (Nat × ArcRef)
  root : Nat
  deriving DecidableEq

namespace Ascent

/-- The arcs that carry flow along the way in the tree `side`, bottom up. -/
def carriers (p : Ascent) (side : Segment) : List ArcRef := p.steps.map fun s => treeArc side s.2

/-- The nodes on the way, bottom up. -/
def nodes (p : Ascent) : List Nat := p.steps.map Prod.fst ++ [p.root]

end Ascent

/-- A path from the source to the sink. -/
structure Path where
  /-- From the node where the path leaves the source tree up to its root. -/
  source : Ascent
  /-- The arc between the trees. -/
  middle : ArcRef
  /-- From the node where the path enters the sink tree up to its root. -/
  sink : Ascent
  deriving DecidableEq

namespace Path

/-- The arcs of the path in the order in which flow takes them. -/
def arcs (p : Path) : List ArcRef :=
  (p.source.carriers .source).reverse ++ p.middle :: p.sink.carriers .sink

/-- The nodes of the path in the order in which flow visits them. -/
def nodes (p : Path) : List Nat := p.source.nodes.reverse ++ p.sink.nodes

end Path

namespace Forest

/-- The way from the node `u` up to its root. -/
def ascend (t : ArcTable) (f : Forest) (fuel u : Nat) : Except Fault Ascent := do
  match ← fetch f.labels u with
  | none => .error (.brokenPath u)
  | some l =>
    match l.parent with
    | .orphan => .error (.brokenPath u)
    | .root => return ⟨[], u⟩
    | .via a =>
      match fuel with
      | 0 => .error .endless
      | fuel + 1 =>
        let v ← t.head a
        let p ← ascend t f fuel v
        return ⟨(u, a) :: p.steps, p.root⟩

/-- The augmenting path through a meeting of the trees. -/
def path (t : ArcTable) (f : Forest) (m : Meeting) : Except Fault Path := do
  let source ← f.ascend t f.labels.size m.sourceEnd
  let sink ← f.ascend t f.labels.size m.sinkEnd
  return { source, middle := m.middle, sink }

end Forest

/-! ## How much a path can take -/

/-- The smallest of `x` and the residual capacities of a list of arcs. -/
def ArcTable.smallest (t : ArcTable) (x : Int) (as : List ArcRef) : Except Fault Int :=
  as.foldlM (fun x a => do return min x (← t.residual a)) x

/-- The most that can be pushed along a path. -/
def Residual.bottleneck (r : Register) (R : Residual) (p : Path) : Except Fault Int := do
  let x ← R.arcs.residual p.middle
  let x ← R.arcs.smallest x (p.source.carriers .source)
  let supply ← fetch R.excess p.source.root
  let x ← R.arcs.smallest (min x supply) (p.sink.carriers .sink)
  let excess ← fetch R.excess p.sink.root
  let demand ← r.store (-excess)
  return min x demand

/-! ## Pushing -/

/-- What an augmentation did. -/
structure Augmentation where
  /-- How much was pushed. -/
  bottleneck : Int
  /-- Where the path left the source tree. -/
  sourceEnd : Nat
  /-- Where the path entered the sink tree. -/
  sinkEnd : Nat
  deriving DecidableEq

namespace Search

/-- Pushes `x` along an arc. -/
def pushArc (r : Register) (x : Int) (s : Search) (a : ArcRef) : Except Fault Search := do
  return { s with residual.arcs := ← s.residual.arcs.pushFlow r a x }

/-- Pushes `x` along the tree edge of a node, which loses its parent if that saturates the
edge. -/
def pushStep (r : Register) (side : Segment) (x : Int) (s : Search) (step : Nat × ArcRef) :
    Except Fault Search := do
  let s ← s.pushArc r x (treeArc side step.2)
  let rest ← s.residual.arcs.treeResidual side step.2
  if rest = 0 then
    return { s with forest := ← s.forest.orphan step.1 }
  else
    return s

/-- The excess that is left of a root through which `x` is pushed. -/
def drain (r : Register) (side : Segment) (x excess : Int) : Except Fault Int :=
  match side with
  | .source => r.store (excess - x)
  | .sink => r.store (excess + x)

/-- Whether an excess lies on the side of zero that belongs to the other tree. -/
def isPastZero (side : Segment) (excess : Int) : Bool :=
  match side with
  | .source => excess < 0
  | .sink => 0 < excess

/-- Pushes `x` through the root `u`, which loses its terminal if that saturates it. -/
def pushRoot (r : Register) (side : Segment) (x : Int) (s : Search) (u : Nat) :
    Except Fault Search := do
  let excess ← fetch s.residual.excess u
  let rest ← drain r side x excess
  if isPastZero side rest then
    .error (.rootPastZero u)
  else
    let s := { s with residual.excess := s.residual.excess.setIfInBounds u rest }
    if rest = 0 then
      return { s with forest := ← s.forest.orphan u }
    else
      return s

/-- Pushes `x` along the way between a node and its terminal. -/
def pushAscent (r : Register) (side : Segment) (x : Int) (s : Search) (p : Ascent) :
    Except Fault Search := do
  let s ← p.steps.foldlM (pushStep r side x) s
  s.pushRoot r side x p.root

/-- Pushes `x` along a path. -/
def pushPath (r : Register) (x : Int) (s : Search) (p : Path) : Except Fault Search := do
  let s ← s.pushArc r x p.middle
  let s ← s.pushAscent r .source x p.source
  let s ← s.pushAscent r .sink x p.sink
  let flow ← r.store (s.residual.flow + x)
  return { s with residual.flow := flow, augmentations := s.augmentations + 1 }

/-- Pushes as much as possible along the path through a meeting of the trees. -/
def augment (r : Register) (s : Search) (m : Meeting) : Except Fault (Search × Augmentation) := do
  let p ← s.forest.path s.residual.arcs m
  let x ← s.residual.bottleneck r p
  if 0 < x then
    let s ← s.pushPath r x p
    return (s, ⟨x, m.sourceEnd, m.sinkEnd⟩)
  else
    .error .emptyPath

end Search

end MinCut
