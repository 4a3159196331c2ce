/-
# Adopting orphans

An orphan looks for a new parent among the nodes around it: a node of its tree whose tree
edge to the orphan has residual capacity and whose way up ends at a root.  It takes the
one nearest to its root, the first of several.  The ways up are measured as they are
walked, and every node on a way that ends at a root gets its exact depth and the present
time, so that later walks of the same phase stop there.

An orphan that finds no parent becomes free.  Its children become orphans in turn, and the
nodes that could grow back to it are made active.
-/
import MinCut.Forest.Basic

namespace MinCut

namespace Forest

/-! ## Measuring a way up -/

/-- The number of nodes from `u` up to its root, or nothing if the way ends at an orphan.
The walk stops early at a node that was measured at the present time. -/
def depth? (t : ArcTable) (f : Forest) (fuel u : Nat) : Except Fault (Option Nat) := do
  match ← fetch f.labels u with
  | none => .error (.freeOnChain u)
  | some l =>
    if l.stamp = f.clock then
      return some l.depth
    else
      match l.parent with
      | .root => return some 1
      | .orphan => return none
      | .via a =>
        match fuel with
        | 0 => .error .endless
        | fuel + 1 =>
          let v ← t.head a
          let d ← depth? t f fuel v
          return d.map (· + 1)

/-- Writes the depth `d` to the node `u`, `d - 1` to its parent and so on, up to the root
or to a node that was measured at the present time. -/
def markUp (t : ArcTable) (f : Forest) (d u : Nat) : Except Fault Forest := do
  match ← fetch f.labels u with
  | none => .error (.unmeasured u)
  | some l =>
    if l.stamp = f.clock then
      return f
    else
      match d with
      | 0 => .error (.unmeasured u)
      | d + 1 =>
        let f := f.setLabel u (some (l.measured f.clock (d + 1)))
        match l.parent with
        | .root => return f
        | .orphan => .error (.unmeasured u)
        | .via a =>
          let v ← t.head a
          markUp t f d v

/-! ## Looking for a parent -/

/-- A node that an orphan may hang on: the arc to it and its depth. -/
structure Candidate where
  arc : ArcRef
  depth : Nat
  deriving DecidableEq

/-- The nearer of two candidates, the earlier one if they are equally near. -/
def nearer (best : Option Candidate) (c : Candidate) : Option Candidate :=
  match best with
  | none => some c
  | some b => if c.depth < b.depth then some c else some b

/-- What an orphan of the tree `side` does about the arc `a` around it. -/
def consider (t : ArcTable) (side : Segment) (f : Forest) (best : Option Candidate)
    (a : ArcRef) : Except Fault (Forest × Option Candidate) := do
  let capacity ← t.treeResidual side a
  if capacity = 0 then
    return (f, best)
  else
    let j ← t.head a
    match ← fetch f.labels j with
    | none => return (f, best)
    | some m =>
      if m.side ≠ side then
        return (f, best)
      else
        match ← depth? t f f.labels.size j with
        | none => return (f, best)
        | some d =>
          let f ← markUp t f d j
          return (f, nearer best ⟨a, d⟩)

/-- The best candidate among the nodes that a list of arcs enters. -/
def considerAll (t : ArcTable) (side : Segment) (f : Forest) (best : Option Candidate) :
    List ArcRef → Except Fault (Forest × Option Candidate)
  | [] => .ok (f, best)
  | a :: as => do
    let (f, best) ← consider t side f best a
    considerAll t side f best as

/-! ## Leaving a tree -/

/-- What becomes of the node that the arc `a` enters once the node `i` has left the tree
`side`: it is made active if it could grow back, and orphaned if it is a child of `i`. -/
def releaseAlong (t : ArcTable) (side : Segment) (i : Nat) (f : Forest) (a : ArcRef) :
    Except Fault Forest := do
  let j ← t.head a
  match ← fetch f.labels j with
  | none => return f
  | some m =>
    if m.side ≠ side then
      return f
    else
      let capacity ← t.treeResidual side a
      let f ← if 0 < capacity then f.activate j else pure f
      match m.parent with
      | .via p =>
        let v ← t.head p
        if v = i then return f.orphanBelow j m else return f
      | .root => return f
      | .orphan => return f

/-- What becomes of the nodes that a list of arcs enters. -/
def releaseAll (t : ArcTable) (side : Segment) (i : Nat) (f : Forest) :
    List ArcRef → Except Fault Forest
  | [] => .ok f
  | a :: as => do
    let f ← releaseAlong t side i f a
    releaseAll t side i f as

/-- Lets the node `i` leave the tree `side`. -/
def release (t : ArcTable) (side : Segment) (f : Forest) (i : Nat) : Except Fault Forest := do
  let arcs ← t.around i
  releaseAll t side i (f.setLabel i none) arcs

/-! ## Settling orphans -/

/-- Finds a parent for the orphan `i` or lets it leave its tree. -/
def settle (t : ArcTable) (f : Forest) (i : Nat) : Except Fault Forest := do
  match ← fetch f.labels i with
  | none => .error (.corruptForest i)
  | some l =>
    let arcs ← t.around i
    let (f, best) ← considerAll t l.side f none arcs
    match best with
    | some c => return f.setLabel i (some ⟨l.side, .via c.arc, f.clock, c.depth + 1⟩)
    | none => release t l.side f i

/-- Settles the next orphan, if there is one. -/
def settleNext (t : ArcTable) (f : Forest) : Except Fault (Option Forest) := do
  match f.orphans.next? with
  | none => return none
  | some (i, orphans) => return some (← settle t { f with orphans } i)

/-- Settles one orphan after the other until none is left, and counts them. -/
def adoptAll (t : ArcTable) (f : Forest) (fuel : Nat) : Except Fault (Forest × Nat) := do
  match ← settleNext t f with
  | none => return (f, 0)
  | some g =>
    match fuel with
    | 0 => .error .endless
    | fuel + 1 =>
      let (h, count) ← adoptAll t g fuel
      return (h, count + 1)

/-- Settles all orphans.  No node is settled twice, so the number of nodes bounds the
number of steps. -/
def adopt (t : ArcTable) (f : Forest) : Except Fault (Forest × Nat) :=
  adoptAll t f f.labels.size

end Forest

end MinCut
