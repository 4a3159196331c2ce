/-
# Arc tables

An arc table is the residual network between the nodes: the pairs of arcs, one to each
edge, and for each node the references to the arcs that leave it.  The references of all
nodes stand in one array, grouped by node; those of the node `u` are the entries from
`offsets[u]` up to `offsets[u + 1]`.

Reads and pushes are checked.  Main facts: `head_eq_ok_iff` and `residual_eq_ok_iff`,
which trace a read to the pair of arcs.
-/
import MinCut.Arc

namespace MinCut

/-- The arcs of a network, grouped by the node that they leave. -/
structure ArcTable where
  /-- Where the references of each node begin; the last entry is where all end. -/
  offsets : Array Nat
  /-- References to the arcs that leave each node, node by node. -/
  adjacency : Array ArcRef
  /-- The pair of arcs of each edge. -/
  pairs : Array ArcPair
  deriving DecidableEq

namespace ArcTable

/-! ## Reads -/

/-- The table without nodes and without offsets. -/
def empty : ArcTable := ⟨#[], #[], #[]⟩

/-- The number of nodes. -/
def numNodes (t : ArcTable) : Nat := t.offsets.size - 1

/-- The number of pairs of arcs. -/
def numPairs (t : ArcTable) : Nat := t.pairs.size

/-- The arcs that leave the node `u`, in the order of their edges. -/
def around (t : ArcTable) (u : Nat) : Except Fault (List ArcRef) := do
  let first ← fetch t.offsets u
  let last ← fetch t.offsets (u + 1)
  return (t.adjacency.extract first last).toList

/-- The node that an arc enters. -/
def head (t : ArcTable) (a : ArcRef) : Except Fault Nat := do
  let p ← fetch t.pairs a.pair
  return p.target a.direction

/-- The residual capacity of an arc. -/
def residual (t : ArcTable) (a : ArcRef) : Except Fault Int := do
  let p ← fetch t.pairs a.pair
  return p.residual a.direction

/-! ## Pushes -/

/-- The table after `x` was pushed along an arc, which must have that much capacity. -/
def pushFlow (r : Register) (t : ArcTable) (a : ArcRef) (x : Int) : Except Fault ArcTable := do
  let p ← fetch t.pairs a.pair
  let q ← p.push r a.direction x
  if q.residual a.direction < 0 then
    .error (.negativeResidual a.pair)
  else
    return { t with pairs := t.pairs.setIfInBounds a.pair q }

/-- The table after as much of a push as its register allows. -/
def pushUntilFault (r : Register) (t : ArcTable) (a : ArcRef) (x : Int) : ArcTable :=
  { t with pairs := t.pairs.modify a.pair fun p => p.pushUntilFault r a.direction x }

/-- The edges with their net flows, which is what their forward arcs have lost. -/
def withFlows (r : Register) : List Edge → List ArcPair → Except Fault (List Edge)
  | e :: es, p :: ps => do
    let flow ← r.store (e.capacity - p.forward)
    let rest ← withFlows r es ps
    return { e with flow } :: rest
  | es, _ => .ok es

/-- The edges of the table's pairs with the net flows that the table has taken up. -/
def flowsOn (r : Register) (t : ArcTable) (edges : Array Edge) : Except Fault (Array Edge) := do
  let es ← withFlows r edges.toList t.pairs.toList
  return es.toArray

/-! ## What the reads find -/

/-- An arc enters a node if its pair says so. -/
theorem head_eq_ok_iff {t : ArcTable} {a : ArcRef} {v : Nat} :
    t.head a = .ok v ↔ ∃ p, t.pairs[a.pair]? = some p ∧ p.target a.direction = v := by
  unfold head
  cases h : fetch t.pairs a.pair with
  | error e => simp [bind, Except.bind, (fetch_eq_error_iff.1 h).1]
  | ok p => simp [bind, Except.bind, pure, Except.pure, fetch_eq_ok_iff.1 h]

/-- An arc has the residual capacity that its pair keeps for it. -/
theorem residual_eq_ok_iff {t : ArcTable} {a : ArcRef} {x : Int} :
    t.residual a = .ok x ↔ ∃ p, t.pairs[a.pair]? = some p ∧ p.residual a.direction = x := by
  unfold residual
  cases h : fetch t.pairs a.pair with
  | error e => simp [bind, Except.bind, (fetch_eq_error_iff.1 h).1]
  | ok p => simp [bind, Except.bind, pure, Except.pure, fetch_eq_ok_iff.1 h]

end ArcTable

end MinCut
