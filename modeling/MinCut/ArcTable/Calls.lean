/-
# Calls on an arc table

A bench holds one arc table and the edges of the latest attempt to build it.  An attempt
that fails leaves the table as it was, and the edges are those of the failed attempt.  A
push that fails leaves the table where the fault met it.  Any other call that fails
changes nothing.
-/
import MinCut.ArcTable.Build
import MinCut.Transcript

namespace MinCut

/-- An arc table in use, with the edges last handed to it. -/
structure ArcBench where
  table : ArcTable
  edges : Array Edge
  deriving DecidableEq

namespace ArcBench

/-- The bench with the table without nodes. -/
def empty : ArcBench := ⟨.empty, #[]⟩

/-- A use of the table. -/
inductive Call where
  /-- Build the table of a network with `n` nodes. -/
  | build (n : Nat) (edges : Array Edge)
  /-- List the arcs that leave the node `u`. -/
  | around (u : Nat)
  /-- Name the sister of an arc. -/
  | sister (a : ArcRef)
  /-- Name the node that an arc enters. -/
  | head (a : ArcRef)
  /-- Tell the residual capacity of an arc. -/
  | residual (a : ArcRef)
  /-- Push `x` along an arc. -/
  | pushFlow (a : ArcRef) (x : Int)
  /-- Write the net flows into the edges. -/
  | takeFlows
  /-- List the pairs of arcs. -/
  | pairs

/-- What a use of the table answers. -/
inductive Reply where
  /-- The counts of nodes and pairs and the offsets of a table just built. -/
  | built (nodes pairs : Nat) (offsets : List Nat)
  /-- Arcs, each with the node that it enters and its residual capacity. -/
  | arcs (entries : List (ArcRef × Nat × Int))
  | arc (a : ArcRef)
  | node (u : Nat)
  | capacity (x : Int)
  | flows (xs : List Int)
  | pairs (ps : List ArcPair)

/-- An arc with the node that it enters and its residual capacity. -/
def describeArc (t : ArcTable) (a : ArcRef) : Except Fault (ArcRef × Nat × Int) := do
  return (a, ← t.head a, ← t.residual a)

/-- One use of the table that did not fail, with the bench that it leaves behind. -/
def perform (r : Register) (b : ArcBench) : Call → Except Fault (Reply × ArcBench)
  | .build n edges => do
    let table ← ArcTable.build n edges
    return (.built table.numNodes table.numPairs table.offsets.toList, { table, edges })
  | .around u => do
    let arcs ← b.table.around u
    return (.arcs (← arcs.mapM (describeArc b.table)), b)
  | .sister a => return (.arc a.sister, b)
  | .head a => return (.node (← b.table.head a), b)
  | .residual a => return (.capacity (← b.table.residual a), b)
  | .pushFlow a x => do
    let table ← b.table.pushFlow r a x
    return (.pairs table.pairs.toList, { b with table })
  | .takeFlows => do
    let edges ← b.table.flowsOn r b.edges
    return (.flows (edges.toList.map Edge.flow), { b with edges })
  | .pairs => return (.pairs b.table.pairs.toList, b)

/-- The bench that a failing call leaves behind. -/
def afterFault (r : Register) (b : ArcBench) : Call → ArcBench
  | .build _ edges => { b with edges }
  | .pushFlow a x => { b with table := b.table.pushUntilFault r a x }
  | _ => b

/-- One use of the table. -/
def call (r : Register) (b : ArcBench) (c : Call) : Except Fault Reply × ArcBench :=
  keepOnFault (b.afterFault r c) (b.perform r c)

/-- The replies to a list of calls on the table without nodes. -/
def replies (r : Register) (cs : List Call) : List (Except Fault Reply) :=
  (transcript (call r) empty cs).1

end ArcBench

end MinCut
