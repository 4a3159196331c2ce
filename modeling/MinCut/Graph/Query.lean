/-
# Asking a graph

Before the first solve every node counts as lying on the side of the sink, and the flow is
zero.  Afterwards the answers are those of the search that solved the graph.
-/
import MinCut.Graph.Solve

namespace MinCut

namespace Graph

variable {r : Register}

/-- The side of the minimum cut on which the node `v` lies, if there is such a node. -/
def segment? (g : Graph r) (v : Nat) : Option Segment :=
  if v < g.numNodes then
    match g.search with
    | some s => some (s.segment v)
    | none => some .sink
  else
    none

/-- The side of the minimum cut on which the node `v` lies; a node that does not exist is
an error. -/
def segmentOf (g : Graph r) (v : Nat) : Except GraphError Segment :=
  match g.segment? v with
  | some side => .ok side
  | none => .error (.unknownNode v)

/-- The value of the flow. -/
def maximumFlow (g : Graph r) : Int :=
  match g.search with
  | some s => s.residual.flow
  | none => 0

/-- The nodes on the source side of the minimum cut, in ascending order. -/
def minimumCut (g : Graph r) : List Nat :=
  (List.range g.numNodes).filter fun v => g.segment? v = some .source

/-- The edge with number `e` and its net flow, if there is such an edge. -/
def edge? (g : Graph r) (e : Nat) : Option Edge := g.network.edges[e]?

/-- The residual capacity between the node `v` and the terminals, positive towards the
source and negative towards the sink, if there is such a node. -/
def terminalResidual? (g : Graph r) (v : Nat) : Option Int :=
  match g.search with
  | some s => s.residual.excess[v]?
  | none => g.network.terminals[v]?.map fun t => t.source - t.sink

/-- All that can be asked of a graph, over all nodes and edges. -/
structure Snapshot where
  numNodes : Nat
  numEdges : Nat
  status : Status
  maximumFlow : Int
  minimumCut : List Nat
  /-- The side of every node. -/
  segments : List Segment
  /-- The residual capacity between every node and the terminals. -/
  residuals : List Int
  edges : List Edge
  deriving DecidableEq

/-- All that can be asked of the graph. -/
def snapshot (g : Graph r) : Snapshot where
  numNodes := g.numNodes
  numEdges := g.numEdges
  status := g.status
  maximumFlow := g.maximumFlow
  minimumCut := g.minimumCut
  segments := (List.range g.numNodes).filterMap g.segment?
  residuals := (List.range g.numNodes).filterMap g.terminalResidual?
  edges := (List.range g.numEdges).filterMap g.edge?

/-! ## Small facts -/

/-- A node has a side exactly if it exists. -/
theorem isSome_segment? (g : Graph r) (v : Nat) :
    (g.segment? v).isSome = decide (v < g.numNodes) := by
  unfold segment?
  by_cases h : v < g.numNodes <;> simp [h]
  cases g.search <;> rfl

/-- The minimum cut lists the nodes on the side of the source. -/
theorem mem_minimumCut {g : Graph r} {v : Nat} :
    v ∈ g.minimumCut ↔ g.segment? v = some .source := by
  have h := isSome_segment? g v
  unfold minimumCut
  simp only [List.mem_filter, List.mem_range, decide_eq_true_eq, and_iff_right_iff_imp]
  intro hs
  simpa [hs] using h

end Graph

end MinCut
