/-
# The steps of a solver

The steps of a search as a program takes them on its variables: planting the roots, taking up the
next node, growing a tree, augmenting a path and settling the orphans.  The steps around an orphan
read the tree that is written in a cell even if the node is free, but then they pass it over,
whatever that tree is.
-/
import MinCut.Solver.Basic

namespace MinCut

namespace Solver

/-! ## Planting the roots -/

/-- Queues the node `u` if it has an excess. -/
def activateRoot (cells : Array Cell) (q : ActiveQueue) (u : Nat) : Except Fault ActiveQueue := do
  let c ← fetch cells u
  if c.excess = 0 then return q else q.push u

/-- Every node with an excess is queued, in ascending order. -/
def activateRoots (cells : Array Cell) : Except Fault ActiveQueue :=
  (List.range cells.size).foldlM (activateRoot cells) (.ofSize cells.size)

/-- The variables at the start of a solve. -/
def init (v : Solver) : Except Fault Solver := do
  return { v with
    cells := v.cells.map Cell.planted
    active := ← activateRoots v.cells
    orphans := .empty
    clock := 0 }

/-! ## Choosing the node to grow -/

/-- Takes a node from the queue, which is passed over if it hangs on nothing. -/
def takeStep (v : Solver) : Except Fault (Solver ⊕ (Option Nat × Solver)) := do
  match ← v.active.take? with
  | none => return .inr (none, v)
  | some (u, active) =>
    let v := { v with active }
    if ← v.isAttached u then
      return .inr (some u, v)
    else
      return .inl v

/-- The active node that is next to grow, if there is one.  Every step takes a node from the
queue. -/
def nextActive (v : Solver) : Except Fault (Option Nat × Solver) :=
  repeatUntil takeStep v.active.queue.size v

/-- The node to grow: the held node if it still hangs on something, and otherwise the next active
node. -/
def choose (v : Solver) (held : Option Nat) : Except Fault (Option Nat × Solver) := do
  match held with
  | none => v.nextActive
  | some i =>
    let v ← v.mark i false
    if ← v.isAttached i then
      return (some i, v)
    else
      v.nextActive

/-! ## Growing -/

/-- What a node `i` with the cell `c` does about the node `j` that the arc `a` enters. -/
def growTo (v : Solver) (i : Nat) (c : Cell) (a : ArcRef) (j : Nat) :
    Except Fault (Solver × Option Meeting) := do
  let d ← fetch v.cells j
  match d.parent with
  | none =>
    let v ← (v.setCell j { d.below c a.sister with side := c.side }).activate j
    return (v, none)
  | some _ =>
    if d.side ≠ c.side then
      return (v, some (.found c.side i j a))
    else if v.reparent ∧ d.stamp ≤ c.stamp ∧ c.depth < d.depth then
      return (v.setCell j (d.below c a.sister), none)
    else
      return (v, none)

/-- What a node `i` with the cell `c` does about the arc `a` around it. -/
def growAlong (i : Nat) (c : Cell) (v : Solver) (a : ArcRef) :
    Except Fault (Solver × Option Meeting) := do
  let capacity ← v.arcs.treeResidual c.side a.sister
  if capacity = 0 then
    return (v, none)
  else
    let j ← v.arcs.head a
    v.growTo i c a j

/-- The scan of a list of arcs, which ends at the first meeting. -/
def growAll (i : Nat) (c : Cell) (v : Solver) : List ArcRef →
    Except Fault (Solver × Option Meeting)
  | [] => .ok (v, none)
  | a :: as => do
    match ← growAlong i c v a with
    | (v, some m) => return (v, some m)
    | (v, none) => growAll i c v as

/-- Lets the node `i` grow its tree, after which the time advances. -/
def grow (v : Solver) (i : Nat) : Except Fault (Solver × Option Meeting) := do
  let c ← fetch v.cells i
  let arcs ← v.arcs.slice i
  let (v, meeting) ← growAll i c v arcs
  return ({ v with clock := v.clock + 1 }, meeting)

/-! ## Augmenting -/

/-- Goes from a node up to its parent with the smallest residual capacity so far. -/
def narrowStep (v : Solver) (side : Segment) :
    Int × Nat → Except Fault ((Int × Nat) ⊕ (Int × Nat))
  | (x, u) => do
    match ← v.upArc? u with
    | none => return .inr (x, u)
    | some a =>
      let capacity ← v.arcs.treeResidual side a
      let w ← v.arcs.head a
      return .inl (min x capacity, w)

/-- The most that can be pushed along the path through a meeting. -/
def bottleneck (r : Register) (n : Nat) (v : Solver) (m : Meeting) : Except Fault Int := do
  let x ← v.arcs.residual m.middle
  let (x, u) ← repeatUntil (v.narrowStep .source) n (x, m.sourceEnd)
  let c ← fetch v.cells u
  let (x, u) ← repeatUntil (v.narrowStep .sink) n (min x c.excess, m.sinkEnd)
  let c ← fetch v.cells u
  let demand ← r.store (-c.excess)
  return min x demand

/-- Takes the parent from a node whose tree edge or terminal an augmentation saturated. -/
def makeOrphan (v : Solver) (u : Nat) : Except Fault Solver := do
  let c ← fetch v.cells u
  return { v.setCell u { c with parent := some .orphan } with
    orphans := v.orphans.pushSaturated u }

/-- Pushes `x` along the tree edge of a node and goes up to its parent. -/
def pushStep (r : Register) (side : Segment) (x : Int) :
    Solver × Nat → Except Fault ((Solver × Nat) ⊕ (Solver × Nat))
  | (v, u) => do
    match ← v.upArc? u with
    | none => return .inr (v, u)
    | some a =>
      let v := { v with arcs := ← v.arcs.pushFlow r (treeArc side a) x }
      let rest ← v.arcs.treeResidual side a
      let v ← if rest = 0 then v.makeOrphan u else pure v
      let w ← v.arcs.head a
      return .inl (v, w)

/-- Pushes `x` through the root `u`. -/
def pushRoot (r : Register) (side : Segment) (x : Int) (v : Solver) (u : Nat) :
    Except Fault Solver := do
  let c ← fetch v.cells u
  let rest ← Search.drain r side x c.excess
  if Search.isPastZero side rest then
    .error (.rootPastZero u)
  else
    let v := v.setCell u { c with excess := rest }
    if rest = 0 then v.makeOrphan u else return v

/-- Pushes `x` along the way from a node up to its terminal. -/
def pushUp (r : Register) (n : Nat) (side : Segment) (x : Int) (v : Solver) (u : Nat) :
    Except Fault Solver := do
  let (v, u) ← repeatUntil (pushStep r side x) n (v, u)
  v.pushRoot r side x u

/-- Pushes as much as possible along the path through a meeting of the trees. -/
def augment (r : Register) (n : Nat) (v : Solver) (m : Meeting) :
    Except Fault (Solver × Augmentation) := do
  let x ← v.bottleneck r n m
  if 0 < x then
    let v := { v with arcs := ← v.arcs.pushFlow r m.middle x }
    let v ← v.pushUp r n .source x m.sourceEnd
    let v ← v.pushUp r n .sink x m.sinkEnd
    let flow ← r.store (v.flow + x)
    return ({ v with flow, augmentations := v.augmentations + 1 }, ⟨x, m.sourceEnd, m.sinkEnd⟩)
  else
    .error .emptyPath

/-! ## Settling orphans -/

/-- Goes from a node up to its parent and counts the nodes passed.  A root at which the walk ends is
measured. -/
def measureStep (v : Solver) :
    Nat × Nat → Except Fault ((Nat × Nat) ⊕ (Option Nat × Solver))
  | (u, d) => do
    let c ← fetch v.cells u
    if c.stamp = v.clock then
      return .inr (some (d + c.depth), v)
    else
      match c.parent with
      | some .root =>
        return .inr (some (d + 1), v.setCell u { c with stamp := v.clock, depth := 1 })
      | some .orphan => return .inr (none, v)
      | some (.via a) =>
        let w ← v.arcs.head a
        return .inl (w, d + 1)
      | none => .error (.freeOnChain u)

/-- Writes the depth `d` to the node `u` and goes up to its parent, unless the node was measured at
the present time. -/
def markStep : Solver × Nat × Nat → Except Fault ((Solver × Nat × Nat) ⊕ Solver)
  | (v, u, d) => do
    let c ← fetch v.cells u
    if c.stamp = v.clock then
      return .inr v
    else
      match d with
      | 0 => .error (.unmeasured u)
      | d + 1 =>
        let v := v.setCell u { c with stamp := v.clock, depth := d + 1 }
        match c.parent with
        | some (.via a) =>
          let w ← v.arcs.head a
          return .inl (v, w, d)
        | _ => .error (.unmeasured u)

/-- What an orphan of the tree `side` does about the arc `a` around it. -/
def consider (n : Nat) (side : Segment) (v : Solver) (best : Option Forest.Candidate)
    (a : ArcRef) : Except Fault (Solver × Option Forest.Candidate) := do
  let capacity ← v.arcs.treeResidual side a
  if capacity = 0 then
    return (v, best)
  else
    let j ← v.arcs.head a
    let d ← fetch v.cells j
    if d.side ≠ side ∨ d.parent = none then
      return (v, best)
    else
      let (depth, v) ← repeatUntil v.measureStep n (j, 0)
      match depth with
      | none => return (v, best)
      | some e =>
        let v ← repeatUntil markStep e (v, j, e)
        return (v, Forest.nearer best ⟨a, e⟩)

/-- The best candidate among the nodes that a list of arcs enters. -/
def considerAll (n : Nat) (side : Segment) (v : Solver) (best : Option Forest.Candidate) :
    List ArcRef → Except Fault (Solver × Option Forest.Candidate)
  | [] => .ok (v, best)
  | a :: as => do
    let (v, best) ← consider n side v best a
    considerAll n side v best as

/-- What becomes of the node that the arc `a` enters once the node `i` has left the tree `side`. -/
def releaseAlong (side : Segment) (i : Nat) (v : Solver) (a : ArcRef) : Except Fault Solver := do
  let j ← v.arcs.head a
  let d ← fetch v.cells j
  if d.side ≠ side ∨ d.parent = none then
    return v
  else
    let capacity ← v.arcs.treeResidual side a
    let v ← if 0 < capacity then v.activate j else pure v
    match d.parent with
    | some (.via p) =>
      let w ← v.arcs.head p
      if w = i then
        return { v.setCell j { d with parent := some .orphan } with
          orphans := v.orphans.pushCascade j }
      else
        return v
    | _ => return v

/-- What becomes of the nodes that a list of arcs enters. -/
def releaseAll (side : Segment) (i : Nat) (v : Solver) : List ArcRef → Except Fault Solver
  | [] => .ok v
  | a :: as => do
    let v ← releaseAlong side i v a
    releaseAll side i v as

/-- Lets the node `i` leave the tree `side`.  The tree and the depth in its cell stay as they
are. -/
def release (side : Segment) (v : Solver) (i : Nat) : Except Fault Solver := do
  let c ← fetch v.cells i
  let v := v.setCell i { c with parent := none, stamp := 0 }
  let arcs ← v.arcs.slice i
  releaseAll side i v arcs

/-- Finds a parent for the orphan `i` or lets it leave its tree. -/
def settle (n : Nat) (v : Solver) (i : Nat) : Except Fault Solver := do
  let c ← fetch v.cells i
  let arcs ← v.arcs.slice i
  let (v, best) ← considerAll n c.side v none arcs
  match best with
  | some b =>
    let d ← fetch v.cells i
    return v.setCell i
      { d with parent := some (.via b.arc), stamp := v.clock, depth := b.depth + 1 }
  | none => release c.side v i

/-- Settles the next orphan, if there is one. -/
def adoptStep (n : Nat) (v : Solver) : Except Fault (Solver ⊕ Solver) := do
  match v.orphans.next? with
  | none => return .inr v
  | some (i, orphans) =>
    let v ← settle n { v with orphans } i
    return .inl { v with adoptions := v.adoptions + 1 }

/-- Settles one orphan after the other until none is left. -/
def adopt (n : Nat) (v : Solver) : Except Fault Solver := repeatUntil (adoptStep n) n v

end Solver

end MinCut
