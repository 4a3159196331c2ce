/-
# Uses of a table in variables

A program keeps an arc table in variables and uses it there.  It looks up the row of a node only
within the references, and it pushes along an arc by writing first what is left of this arc and
then what its sister has gained.  Flows are written into edges that the program brings along.

`LiveTable.call` makes the calls of `ArcBench.call` in this manner.
-/
import MinCut.ArcTable.Calls
import MinCut.ArcTable.Rebuilding
import MinCut.Search.InPlace

namespace MinCut

namespace LiveTable

/-- The variables of a table without nodes. -/
def empty : LiveTable where
  numNodes := 0
  numPairs := 0
  offsets := #[]
  adjacency := #[]
  pairs := #[]
  written := []

/-- The table that stands in the variables. -/
def table (l : LiveTable) : ArcTable := ⟨l.offsets, l.adjacency, l.pairs⟩

/-- Writes the pair of arcs with number `k`. -/
def writePair (k : Nat) (p : ArcPair) : Step Unit :=
  modify fun l => { l with pairs := l.pairs.setIfInBounds k p }

/-- Pushes `x` along an arc, which must have had that much capacity. -/
def pushFlow (r : Register) (a : ArcRef) (x : Int) : Step Unit := do
  let p ← ofExcept (fetch (← get).pairs a.pair)
  let p ← ofExcept (p.take r a.direction x)
  writePair a.pair p
  let p ← ofExcept (p.give r a.direction.opposite x)
  writePair a.pair p
  if p.residual a.direction < 0 then
    throw (.negativeResidual a.pair)

/-- The arcs around the node `u`, each with the node that it enters and its residual capacity. -/
def describeRow (t : ArcTable) (u : Nat) : Except Fault (List (ArcRef × Nat × Int)) := do
  let arcs ← t.slice u
  arcs.mapM (ArcBench.describeArc t)

/-- A use of the table. -/
structure Use where
  call : ArcBench.Call
  /-- What the flows are written into, if flows are asked for. -/
  edges : Array Edge

/-- What the program does to answer a call; `p` is the placeholder of its builds. -/
def perform (r : Register) (p : ArcRef) (edges : Array Edge) : ArcBench.Call → Step ArcBench.Reply
  | .build n es => do
    build p n es
    let l ← get
    return .built l.numNodes l.numPairs l.offsets.toList
  | .around u => return .arcs (← ofExcept (describeRow (← get).table u))
  | .sister a => return .arc a.sister
  | .head a => return .node (← ofExcept ((← get).table.head a))
  | .residual a => return .capacity (← ofExcept ((← get).table.residual a))
  | .pushFlow a x => do
    pushFlow r a x
    return .pairs (← get).pairs.toList
  | .takeFlows => return .flows ((← ofExcept ((← get).table.flowsOn r edges)).toList.map Edge.flow)
  | .pairs => return .pairs (← get).pairs.toList

/-- One use of the table. -/
def call (r : Register) (p : ArcRef) (l : LiveTable) (c : Use) :
    Except Fault ArcBench.Reply × LiveTable :=
  exec (perform r p c.edges c.call) l

end LiveTable

/-- The uses of a table that calls on a bench come to. -/
def ArcBench.uses (r : Register) (b : ArcBench) : List ArcBench.Call → List LiveTable.Use
  | [] => []
  | c :: cs => ⟨c, b.edges⟩ :: uses r (b.call r c).2 cs

end MinCut
