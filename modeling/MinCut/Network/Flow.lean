/-
# Flows

A flow sends an amount from the source into each node, an amount from each node into the
sink, and a net amount along each edge from its tail to its head.  It is feasible if no
capacity is exceeded in either direction and no node keeps or makes any of it.
-/
import MinCut.Network

namespace MinCut

/-- Amounts sent through a network. -/
structure FlowAssignment where
  /-- The net amount along each edge, from its tail to its head. -/
  along : Nat → Int
  /-- What each node receives from the source. -/
  fromSource : Nat → Int
  /-- What each node sends into the sink. -/
  intoSink : Nat → Int

namespace Network

/-- What leaves the node `v` along the edges, less what enters it. -/
def netOutflow (N : Network) (along : Nat → Int) (v : Nat) : Int :=
  N.edgeSum fun k e =>
    (if e.tail = v then along k else 0) - (if e.head = v then along k else 0)

/-- Whether a flow respects all capacities and is conserved at every node. -/
structure IsFeasible (N : Network) (F : FlowAssignment) : Prop where
  neg_reverseCapacity_le : ∀ k e, N.edges[k]? = some e → -e.reverseCapacity ≤ F.along k
  le_capacity : ∀ k e, N.edges[k]? = some e → F.along k ≤ e.capacity
  fromSource_nonneg : ∀ v t, N.terminals[v]? = some t → 0 ≤ F.fromSource v
  fromSource_le : ∀ v t, N.terminals[v]? = some t → F.fromSource v ≤ t.source
  intoSink_nonneg : ∀ v t, N.terminals[v]? = some t → 0 ≤ F.intoSink v
  intoSink_le : ∀ v t, N.terminals[v]? = some t → F.intoSink v ≤ t.sink
  conserved : ∀ v, v < N.numNodes → F.fromSource v - F.intoSink v = N.netOutflow F.along v

/-- What a flow sends out of the source. -/
def flowValue (N : Network) (F : FlowAssignment) : Int := N.nodeSum fun v _ => F.fromSource v

end Network

end MinCut
