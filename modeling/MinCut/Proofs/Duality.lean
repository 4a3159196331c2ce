/-
# Flows and cuts

Whatever a flow sends out of the source crosses every cut.  The capacity of a cut is therefore
the value of the flow and what the flow leaves unused of the cut: on the edges, in the
direction in which they cross it, and at the terminals of the nodes.

Key facts:
* `cutCapacity_eq_flowValue_add_unused` : the capacity of a cut is used up or left unused;
* `flowValue_le_cutCapacity` : no feasible flow exceeds the capacity of any cut;
* `unused_eq_zero_of_isMinimumCut` : if a flow uses up one cut, it uses up every minimum cut.
-/
import MinCut.Network.Cut
import MinCut.Proofs.Sums

namespace MinCut

/-- What an edge with the net flow `x` could still carry across a cut. -/
def Edge.unused (side : Nat → Segment) (x : Int) (e : Edge) : Int :=
  match side e.tail, side e.head with
  | .source, .sink => e.capacity - x
  | .sink, .source => e.reverseCapacity + x
  | .source, .source => 0
  | .sink, .sink => 0

/-- What the terminals of a node could still carry across a cut, if the node already receives
`received` from the source and sends `sent` into the sink. -/
def TerminalWeights.unused (side : Segment) (received sent : Int) (t : TerminalWeights) : Int :=
  match side with
  | .source => t.sink - sent
  | .sink => t.source - received

/-- The weight of a node in the source side of a cut. -/
def Segment.weight : Segment → Int
  | source => 1
  | sink => 0

namespace Network

variable {N : Network} {F : FlowAssignment} {side : Nat → Segment}

/-- What a flow leaves unused of the capacity of a cut. -/
def unused (N : Network) (F : FlowAssignment) (side : Nat → Segment) : Int :=
  (N.edgeSum fun k e => e.unused side (F.along k)) +
    N.nodeSum fun v t => t.unused (side v) (F.fromSource v) (F.intoSink v)

/-- What an edge can carry across a cut is what it carries and what it leaves unused. -/
theorem crossing_eq_along_add_unused (side : Nat → Segment) (x : Int) (e : Edge) :
    e.crossing side = x * ((side e.tail).weight - (side e.head).weight) + e.unused side x := by
  unfold Edge.crossing Edge.unused
  cases side e.tail <;> cases side e.head <;> simp only [Segment.weight] <;> ring

/-- **The capacity of a cut** is the value of a flow and what the flow leaves unused of it. -/
theorem cutCapacity_eq_flowValue_add_unused (hN : N.WellFormed)
    (hF : ∀ v, v < N.numNodes → F.fromSource v - F.intoSink v = N.netOutflow F.along v)
    (side : Nat → Segment) : N.cutCapacity side = N.flowValue F + N.unused F side := by
  -- what crosses the cut along the edges is what leaves the nodes in front of it
  have hedges : (N.edgeSum fun _ e => e.crossing side) =
      (N.nodeSum fun v _ => (side v).weight * N.netOutflow F.along v) +
        N.edgeSum fun k e => e.unused side (F.along k) := by
    rw [nodeSum_netOutflow hN F.along fun v => (side v).weight, edgeSum_add]
    exact edgeSum_congr fun k e _ => crossing_eq_along_add_unused side (F.along k) e
  have hnodes : (N.nodeSum fun v _ => (side v).weight * N.netOutflow F.along v) +
      (N.nodeSum fun v t => t.crossing (side v)) =
        N.flowValue F + N.nodeSum fun v t => t.unused (side v) (F.fromSource v) (F.intoSink v) := by
    rw [flowValue, nodeSum_add, nodeSum_add]
    apply nodeSum_congr
    intro v t ht
    rw [← hF v (Array.getElem?_eq_some_iff.1 ht).1]
    cases side v <;>
      simp only [Segment.weight, TerminalWeights.crossing, TerminalWeights.unused] <;> ring
  calc N.cutCapacity side
      = (N.nodeSum fun v _ => (side v).weight * N.netOutflow F.along v) +
          (N.edgeSum fun k e => e.unused side (F.along k)) +
          N.nodeSum fun v t => t.crossing (side v) := by rw [cutCapacity, hedges]
    _ = ((N.nodeSum fun v _ => (side v).weight * N.netOutflow F.along v) +
          N.nodeSum fun v t => t.crossing (side v)) +
          N.edgeSum fun k e => e.unused side (F.along k) := by ring
    _ = N.flowValue F + N.unused F side := by rw [hnodes, unused]; ring

/-- A feasible flow leaves no negative amount of an edge unused. -/
theorem edge_unused_nonneg (hF : N.IsFeasible F) (side : Nat → Segment) {k : Nat} {e : Edge}
    (hk : N.edges[k]? = some e) : 0 ≤ e.unused side (F.along k) := by
  have hlo := hF.neg_reverseCapacity_le k e hk
  have hhi := hF.le_capacity k e hk
  unfold Edge.unused
  split <;> omega

/-- A feasible flow leaves no negative amount of a terminal weight unused. -/
theorem terminal_unused_nonneg (hF : N.IsFeasible F) (s : Segment) {v : Nat}
    {t : TerminalWeights} (hv : N.terminals[v]? = some t) :
    0 ≤ t.unused s (F.fromSource v) (F.intoSink v) := by
  have hs := hF.fromSource_le v t hv
  have ht := hF.intoSink_le v t hv
  cases s <;> simp only [TerminalWeights.unused] <;> omega

theorem unused_nonneg (hF : N.IsFeasible F) (side : Nat → Segment) : 0 ≤ N.unused F side :=
  Int.add_nonneg (edgeSum_nonneg fun _ _ hk => edge_unused_nonneg hF side hk)
    (nodeSum_nonneg fun v _ hv => terminal_unused_nonneg hF (side v) hv)

/-- Nothing is left of a cut exactly if nothing is left of any edge and any terminal weight. -/
theorem unused_eq_zero_iff (hF : N.IsFeasible F) : N.unused F side = 0 ↔
    (∀ (k : Nat) (e : Edge), N.edges[k]? = some e → e.unused side (F.along k) = 0) ∧
      ∀ (v : Nat) (t : TerminalWeights), N.terminals[v]? = some t →
        t.unused (side v) (F.fromSource v) (F.intoSink v) = 0 := by
  have hedges : 0 ≤ N.edgeSum fun k e => e.unused side (F.along k) :=
    edgeSum_nonneg fun _ _ hk => edge_unused_nonneg hF side hk
  have hnodes : 0 ≤ N.nodeSum fun v t => t.unused (side v) (F.fromSource v) (F.intoSink v) :=
    nodeSum_nonneg fun v _ hv => terminal_unused_nonneg hF (side v) hv
  rw [← edgeSum_eq_zero_iff fun _ _ hk => edge_unused_nonneg hF side hk,
    ← nodeSum_eq_zero_iff fun v _ hv => terminal_unused_nonneg hF (side v) hv, unused]
  constructor
  · intro h
    constructor <;> omega
  · rintro ⟨h₁, h₂⟩
    omega

/-- **Weak duality**: no feasible flow exceeds the capacity of any cut. -/
theorem flowValue_le_cutCapacity (hN : N.WellFormed) (hF : N.IsFeasible F)
    (side : Nat → Segment) : N.flowValue F ≤ N.cutCapacity side := by
  rw [cutCapacity_eq_flowValue_add_unused hN hF.conserved side]
  have hle := unused_nonneg hF side
  omega

/-- A cut of which a feasible flow leaves nothing unused has the value of the flow. -/
theorem cutCapacity_of_unused_eq_zero (hN : N.WellFormed) (hF : N.IsFeasible F)
    (h : N.unused F side = 0) : N.cutCapacity side = N.flowValue F := by
  rw [cutCapacity_eq_flowValue_add_unused hN hF.conserved side, h, Int.add_zero]

/-- If a feasible flow leaves nothing of one cut unused, it leaves nothing of any minimum cut
unused. -/
theorem unused_eq_zero_of_isMinimumCut (hN : N.WellFormed) (hF : N.IsFeasible F)
    (h : N.unused F side = 0) {other : Nat → Segment} (ho : N.IsMinimumCut other) :
    N.unused F other = 0 := by
  have hle := ho side
  rw [cutCapacity_of_unused_eq_zero hN hF h,
    cutCapacity_eq_flowValue_add_unused hN hF.conserved other] at hle
  have hge := unused_nonneg hF other
  omega

end Network

end MinCut
