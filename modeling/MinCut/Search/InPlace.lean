/-
# Searching in place

A program that searches in place has more places to stumble than the functions of the search.
The row of a node must lie within the array of references, and a node taken from the queue must
have a mark.  A walk that measures stamps the root at which it ends, so the walk that writes the
depths down expects to stop below it.  And the parents along an augmenting path are read once
more while the pushes take them away.

Each of these steps is written out here, with the stumbles as faults.
-/
import MinCut.Search.Run

namespace MinCut

/-! ## Rows and marks -/

/-- The arcs that leave the node `u`, whose row must lie within the references. -/
def ArcTable.slice (t : ArcTable) (u : Nat) : Except Fault (List ArcRef) := do
  let first ← fetch t.offsets u
  let last ← fetch t.offsets (u + 1)
  if first ≤ last ∧ last ≤ t.adjacency.size then
    return (t.adjacency.extract first last).toList
  else
    .error (.outOfRange last t.adjacency.size)

/-- The node that has waited longest, which must have a mark. -/
def ActiveQueue.take? (q : ActiveQueue) : Except Fault (Option (Nat × ActiveQueue)) := do
  match q.pop? with
  | none => return none
  | some (u, q') =>
    let _ ← fetch q.linked u
    return some (u, q')

namespace Forest

/-- The active node that is next to grow; every node that is passed over must have a mark. -/
def nextInPlace (f : Forest) (fuel : Nat) : Except Fault (Option Nat × Forest) := do
  match ← f.active.take? with
  | none => return (none, f)
  | some (u, active) =>
    let f := { f with active }
    if ← f.isAttached u then
      return (some u, f)
    else
      match fuel with
      | 0 => .error .endless
      | fuel + 1 => nextInPlace f fuel

/-! ## Measuring -/

/-- The depth of the node at which a walk has begun that has passed `d` nodes and now stands at `u`,
or nothing if its way ends at an orphan.  A root at which the walk ends is measured. -/
def measure (t : ArcTable) (f : Forest) (fuel d u : Nat) : Except Fault (Option Nat × Forest) := do
  match ← fetch f.labels u with
  | none => .error (.freeOnChain u)
  | some l =>
    if l.stamp = f.clock then
      return (some (d + l.depth), f)
    else
      match l.parent with
      | .root => return (some (d + 1), f.setLabel u (some (l.measured f.clock 1)))
      | .orphan => return (none, f)
      | .via a =>
        match fuel with
        | 0 => .error .endless
        | fuel + 1 =>
          let v ← t.head a
          measure t f fuel (d + 1) v

/-- Writes the depth `d` to the node `u`, `d - 1` to its parent and so on, up to a node that was
measured at the present time.  A root must have been measured. -/
def markBelow (t : ArcTable) (f : Forest) (d u : Nat) : Except Fault Forest := do
  match ← fetch f.labels u with
  | none => .error (.unmeasured u)
  | some l =>
    if l.stamp = f.clock then
      return f
    else
      match d with
      | 0 => .error (.unmeasured u)
      | d + 1 =>
        let f := f.setLabel u (some (l.measured f.clock (d + 1)))
        match l.parent with
        | .root => .error (.unmeasured u)
        | .orphan => .error (.unmeasured u)
        | .via a =>
          let v ← t.head a
          markBelow t f d v

/-- What an orphan of the tree `side` does about the arc `a` around it. -/
def considerInPlace (t : ArcTable) (side : Segment) (f : Forest) (best : Option Candidate)
    (a : ArcRef) : Except Fault (Forest × Option Candidate) := do
  let capacity ← t.treeResidual side a
  if capacity = 0 then
    return (f, best)
  else
    let j ← t.head a
    match ← fetch f.labels j with
    | none => return (f, best)
    | some m =>
      if m.side ≠ side then
        return (f, best)
      else
        let (depth, f) ← measure t f f.labels.size 0 j
        match depth with
        | none => return (f, best)
        | some d =>
          let f ← markBelow t f d j
          return (f, nearer best ⟨a, d⟩)

/-! ## Augmenting -/

/-- The arc from a node on an augmenting path to its parent, or nothing at a root. -/
def upArc? (f : Forest) (u : Nat) : Except Fault (Option ArcRef) := do
  match ← fetch f.labels u with
  | none => .error (.brokenPath u)
  | some l =>
    match l.parent with
    | .root => return none
    | .via a => return some a
    | .orphan => .error (.brokenPath u)

end Forest

namespace Search

/-- Pushes `x` along the way from the node `u` up to its terminal, which is found on the way. -/
def pushUp (r : Register) (side : Segment) (x : Int) (s : Search) (fuel u : Nat) :
    Except Fault Search := do
  match ← s.forest.upArc? u with
  | none => s.pushRoot r side x u
  | some a =>
    match fuel with
    | 0 => .error .endless
    | fuel + 1 =>
      let s ← s.pushStep r side x (u, a)
      let v ← s.residual.arcs.head a
      pushUp r side x s fuel v

/-- Pushes as much as possible along the path through a meeting of the trees, once to find out how
much that is and once to push it. -/
def augmentInPlace (r : Register) (s : Search) (m : Meeting) :
    Except Fault (Search × Augmentation) := do
  let p ← s.forest.path s.residual.arcs m
  let x ← s.residual.bottleneck r p
  if 0 < x then
    let s ← s.pushArc r x m.middle
    let s ← s.pushUp r .source x s.forest.labels.size m.sourceEnd
    let s ← s.pushUp r .sink x s.forest.labels.size m.sinkEnd
    let flow ← r.store (s.residual.flow + x)
    return ({ s with residual.flow := flow, augmentations := s.augmentations + 1 },
      ⟨x, m.sourceEnd, m.sinkEnd⟩)
  else
    .error .emptyPath

end Search

end MinCut
