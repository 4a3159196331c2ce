/-
# Cuts

A cut puts every node on the side of the source or on the side of the sink.  Its capacity
is what can flow from the one side to the other: over every edge in the direction in which
it crosses the cut, from the nodes on the source side into the sink, and from the source
into the nodes on the sink side.

A cut is given by a function from nodes to sides, of which only the values at the nodes of
the network count.
-/
import MinCut.Network

namespace MinCut

/-- What an edge carries from the source side of a cut to its sink side. -/
def Edge.crossing (side : Nat → Segment) (e : Edge) : Int :=
  match side e.tail, side e.head with
  | .source, .sink => e.capacity
  | .sink, .source => e.reverseCapacity
  | .source, .source => 0
  | .sink, .sink => 0

/-- What the terminals of a node carry across a cut with the node on the given side. -/
def TerminalWeights.crossing (side : Segment) (t : TerminalWeights) : Int :=
  match side with
  | .source => t.sink
  | .sink => t.source

/-- An edge within one side carries nothing across the cut. -/
theorem Edge.crossing_of_side_eq {side : Nat → Segment} {e : Edge} (h : side e.tail = side e.head) :
    e.crossing side = 0 := by
  unfold Edge.crossing
  rw [h]
  cases side e.head <;> rfl

namespace Network

/-- The capacity of a cut. -/
def cutCapacity (N : Network) (side : Nat → Segment) : Int :=
  N.edgeSum (fun _ e => e.crossing side) + N.nodeSum (fun v t => t.crossing (side v))

/-- No cut has less capacity. -/
def IsMinimumCut (N : Network) (side : Nat → Segment) : Prop :=
  ∀ other : Nat → Segment, N.cutCapacity side ≤ N.cutCapacity other

end Network

end MinCut
