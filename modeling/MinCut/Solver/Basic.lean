/-
# Solvers

A program keeps a search in variables: a cell for every node, with its excess, its parent, its
tree, its depth and the time at which that was measured, and next to the cells the arcs, the queue
of active nodes, the list of orphans, the clock and the counters.  When a node leaves its tree, or
when a solve begins anew, only some of these are cleared.  A free node still has a tree and a depth
written in its cell; they are left over from an earlier time and mean nothing.

The view `forest` forgets what is left over: it gives a label to the nodes with a parent alone.  A
solver shows a search if its views are the parts of the search, whatever its counters.
-/
import MinCut.Search.InPlace

namespace MinCut

/-! ## Loops -/

/-- Repeats a step until it is done, at most `fuel` times after the first. -/
def repeatUntil {σ α : Type} (step : σ → Except Fault (σ ⊕ α)) (fuel : Nat) (s : σ) :
    Except Fault α := do
  match ← step s with
  | .inr a => return a
  | .inl s' =>
    match fuel with
    | 0 => .error .endless
    | fuel + 1 => repeatUntil step fuel s'

/-! ## Cells -/

/-- The variables of a node. -/
@[ext]
structure Cell where
  /-- The residual capacity between the node and the terminals, negative towards the sink. -/
  excess : Int
  /-- What the node hangs on; nothing if it is in neither tree. -/
  parent : Option Parent
  /-- The tree of the node, or the last one that it was in. -/
  side : Segment
  /-- When the depth was measured. -/
  stamp : Nat
  /-- The number of nodes from this one up to its root, as last measured. -/
  depth : Nat
  deriving DecidableEq

namespace Cell

/-- Whether the node is in a tree and hangs on something. -/
def isAttached (c : Cell) : Bool :=
  match c.parent with
  | some .root => true
  | some (.via _) => true
  | _ => false

/-- The label of the node, which it has only in a tree. -/
def label (c : Cell) : Option Label := c.parent.map fun p => ⟨c.side, p, c.stamp, c.depth⟩

/-- The cell at the start of a solve.  Of a node without excess, the tree and the depth stay as
they are. -/
def planted (c : Cell) : Cell :=
  if c.excess = 0 then
    { c with parent := none, stamp := 0 }
  else
    { c with
      parent := some .root
      side := if c.excess < 0 then .sink else .source
      stamp := 0
      depth := 1 }

theorem excess_planted (c : Cell) : c.planted.excess = c.excess := by
  unfold planted
  split <;> rfl

/-- The cell of a node that hangs below the one with the cell `d`, by the arc `a`. -/
def below (c d : Cell) (a : ArcRef) : Cell :=
  { c with parent := some (.via a), stamp := d.stamp, depth := d.depth + 1 }

end Cell

/-! ## Solvers -/

/-- The variables of a search. -/
@[ext]
structure Solver where
  arcs : ArcTable
  cells : Array Cell
  active : ActiveQueue
  orphans : OrphanList
  clock : Nat
  flow : Int
  /-- Whether a growing node takes over nodes of its own tree that lie deeper. -/
  reparent : Bool
  augmentations : Nat
  adoptions : Nat
  deriving DecidableEq

namespace Solver

/-- The excess of every node. -/
def excess (v : Solver) : Array Int := v.cells.map Cell.excess

/-- What the variables show of the residual network. -/
def residual (v : Solver) : Residual := ⟨v.arcs, v.excess, v.flow⟩

/-- What the variables show of the forest. -/
def forest (v : Solver) : Forest := ⟨v.cells.map Cell.label, v.active, v.orphans, v.clock⟩

/-- **What the variables show of a search**: the residual network, the forest and the setting. -/
structure Shows (v : Solver) (R : Residual) (f : Forest) (reparent : Bool) : Prop where
  residual_eq : v.residual = R
  forest_eq : v.forest = f
  reparent_eq : v.reparent = reparent

/-- The variables of a new search of a network. -/
def ofNetwork (r : Register) (N : Network) (reparent : Bool) : Except Fault Solver := do
  let R ← Residual.ofNetwork r N
  return {
    arcs := R.arcs
    cells := R.excess.map fun x => ⟨x, none, .source, 0, 0⟩
    active := .empty
    orphans := .empty
    clock := 0
    flow := R.flow
    reparent := reparent
    augmentations := 0
    adoptions := 0 }

/-- Writes the cell of the node `u`. -/
def setCell (v : Solver) (u : Nat) (c : Cell) : Solver :=
  { v with cells := v.cells.setIfInBounds u c }

/-- Queues the node `u` to grow. -/
def activate (v : Solver) (u : Nat) : Except Fault Solver := do
  return { v with active := ← v.active.push u }

/-- Keeps the node `u` out of the queue of active nodes, or admits it again. -/
def mark (v : Solver) (u : Nat) (linked : Bool) : Except Fault Solver := do
  return { v with active := ← v.active.setLinked u linked }

/-- Whether the node `u` is in a tree and hangs on something. -/
def isAttached (v : Solver) (u : Nat) : Except Fault Bool := do
  let c ← fetch v.cells u
  return c.isAttached

/-- The arc from a node on an augmenting path to its parent, or nothing at a root. -/
def upArc? (v : Solver) (u : Nat) : Except Fault (Option ArcRef) := do
  let c ← fetch v.cells u
  match c.parent with
  | some .root => return none
  | some (.via a) => return some a
  | _ => .error (.brokenPath u)

end Solver

end MinCut
