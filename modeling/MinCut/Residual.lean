/-
# Residual networks

The residual network of a flow keeps what can still be pushed: the residual capacities of
all arcs, and for each node its excess.  The excess of a node is positive if the source
can still send that much into it, negative if it can still send that much into the sink.
One number is enough, for whatever can go from the source through the node straight into
the sink goes there at the outset.
-/
import MinCut.ArcTable.Build

namespace MinCut

/-- What a flow has left of a network, and its value. -/
structure Residual where
  arcs : ArcTable
  /-- The residual capacity between each node and the terminals, negative towards the sink. -/
  excess : Array Int
  /-- The value of the flow. -/
  flow : Int
  deriving DecidableEq

namespace Residual

/-! ## At the outset -/

/-- The flow that goes from the source through a single node into the sink. -/
def initialFlow (r : Register) (ts : List TerminalWeights) : Except Fault Int :=
  ts.foldlM (fun flow t => r.store (flow + min t.source t.sink)) 0

/-- The excess of every node once that flow has gone. -/
def excesses (r : Register) (ts : List TerminalWeights) : Except Fault (List Int) :=
  ts.mapM (fun t => r.store (t.source - t.sink))

/-- The residual network at the outset. -/
def ofNetwork (r : Register) (N : Network) : Except Fault Residual := do
  let arcs ← ArcTable.build N.numNodes N.edges
  let flow ← initialFlow r N.terminals.toList
  let excess ← excesses r N.terminals.toList
  return { arcs, excess := excess.toArray, flow }

end Residual

end MinCut
