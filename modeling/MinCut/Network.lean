/-
# Flow networks

A network has nodes `0, 1, …`, edges between them and two terminals, the source and the
sink.  An edge carries up to `capacity` from its tail to its head and up to
`reverseCapacity` the other way.  Each node is bound to the source and to the sink by its
two terminal weights.
-/
namespace MinCut

/-- The side of a cut on which a node lies. -/
inductive Segment where
  | source
  | sink
  deriving DecidableEq

/-- An edge of a network, with the net flow from its tail to its head. -/
structure Edge where
  tail : Nat
  head : Nat
  /-- The net flow from tail to head; negative if more flows from head to tail. -/
  flow : Int
  /-- The most that can flow from tail to head. -/
  capacity : Int
  /-- The most that can flow from head to tail. -/
  reverseCapacity : Int
  deriving DecidableEq

/-- An edge on which nothing flows. -/
def Edge.idle (tail head : Nat) (capacity reverseCapacity : Int) : Edge :=
  ⟨tail, head, 0, capacity, reverseCapacity⟩

/-- Whether an edge leaves and enters the same node. -/
def Edge.isLoop (e : Edge) : Bool := e.tail == e.head

/-- The capacities that bind a node to the terminals. -/
structure TerminalWeights where
  /-- The most that can flow from the source into the node. -/
  source : Int
  /-- The most that can flow from the node into the sink. -/
  sink : Int
  deriving DecidableEq

/-- The weights of a node that is bound to neither terminal. -/
def TerminalWeights.zero : TerminalWeights := ⟨0, 0⟩

/-- A capacitated network between a source and a sink. -/
structure Network where
  edges : Array Edge
  /-- The terminal weights of every node. -/
  terminals : Array TerminalWeights
  deriving DecidableEq

namespace Network

/-- The network without nodes. -/
def empty : Network := ⟨#[], #[]⟩

/-- The nodes are `0, …, numNodes - 1`. -/
def numNodes (N : Network) : Nat := N.terminals.size

/-- The edges are numbered `0, …, numEdges - 1` in the order in which they were added. -/
def numEdges (N : Network) : Nat := N.edges.size

/-- The sum of a quantity over all edges, given by the number of an edge and the edge. -/
def edgeSum (N : Network) (f : Nat → Edge → Int) : Int :=
  N.edges.toList.zipIdx.foldr (fun p s => f p.2 p.1 + s) 0

/-- The sum of a quantity over all nodes, given by the node and its terminal weights. -/
def nodeSum (N : Network) (f : Nat → TerminalWeights → Int) : Int :=
  N.terminals.toList.zipIdx.foldr (fun p s => f p.2 p.1 + s) 0

/-- Every edge joins two nodes, and no capacity is negative. -/
structure WellFormed (N : Network) : Prop where
  tail_lt : ∀ e ∈ N.edges, e.tail < N.numNodes
  head_lt : ∀ e ∈ N.edges, e.head < N.numNodes
  capacity_nonneg : ∀ e ∈ N.edges, 0 ≤ e.capacity
  reverseCapacity_nonneg : ∀ e ∈ N.edges, 0 ≤ e.reverseCapacity
  source_nonneg : ∀ t ∈ N.terminals, 0 ≤ t.source
  sink_nonneg : ∀ t ∈ N.terminals, 0 ≤ t.sink

end Network

end MinCut
