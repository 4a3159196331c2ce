/-
# Stronger pulls to the source

Let every node be bound at least as strongly to the source and at most as strongly to the sink as
before.  Then the nodes that a solved graph reports on the side of the source stay there.

Two cuts can be crossed out against each other: the cut with the source side that they share and
the cut with both their source sides together have no more capacity than the two, even if the
first is taken before the pull got stronger and the second afterwards.  So if a least minimum cut
before had a node outside of a minimum cut afterwards, what the two share would be a smaller one.

Key facts:
* `Edge.crossing_meet_add_join_le` and `TerminalWeights.crossing_meet_add_join_le` : the exchange,
  for one edge and for one node;
* `StrongerPull.cutCapacity_meet_add_join_le` : the exchange for two whole cuts;
* `StrongerPull.source_of_source` : the least minimum cut before lies in every one afterwards;
* `solve_of_strongerPull` : the source side of a solved graph grows with the pull.
-/
import MinCut.Proofs.LeastCuts

namespace MinCut

/-! ## Two cuts at once -/

/-- The side of a node of which two cuts say where it lies, if both have to call it a source. -/
def Segment.meet : Segment → Segment → Segment
  | .source, .source => .source
  | .source, .sink => .sink
  | .sink, .source => .sink
  | .sink, .sink => .sink

/-- The side of a node of which two cuts say where it lies, if one may call it a source. -/
def Segment.join : Segment → Segment → Segment
  | .source, .source => .source
  | .source, .sink => .source
  | .sink, .source => .source
  | .sink, .sink => .sink

theorem Segment.eq_source_of_meet {s t : Segment} (h : s.meet t = .source) : t = .source := by
  cases s <;> cases t <;> first | rfl | cases h

/-- **An edge** carries no more across the two combined cuts than across the two cuts. -/
theorem Edge.crossing_meet_add_join_le {e : Edge} (hc : 0 ≤ e.capacity)
    (hr : 0 ≤ e.reverseCapacity) (side other : Nat → Segment) :
    e.crossing (fun v => (side v).meet (other v)) + e.crossing (fun v => (side v).join (other v)) ≤
      e.crossing side + e.crossing other := by
  simp only [Edge.crossing]
  cases side e.tail <;> cases side e.head <;> cases other e.tail <;> cases other e.head <;>
    simp only [Segment.meet, Segment.join] <;> omega

/-- **The weights of a node**, with the second cut taken after the pull got stronger. -/
theorem TerminalWeights.crossing_meet_add_join_le {t t' : TerminalWeights}
    (hsource : t.source ≤ t'.source) (hsink : t'.sink ≤ t.sink) (s s' : Segment) :
    t.crossing (s.meet s') + t'.crossing (s.join s') ≤ t.crossing s + t'.crossing s' := by
  unfold TerminalWeights.crossing
  cases s <;> cases s' <;> simp only [Segment.meet, Segment.join] <;> omega

namespace Network

variable {N M : Network} {side other : Nat → Segment}

/-- **`M` is the network `N` with a stronger pull to the source**: the same edges between the same
nodes, and no node has lost weight towards the source or won weight towards the sink. -/
structure StrongerPull (N M : Network) : Prop where
  numNodes_eq : M.numNodes = N.numNodes
  edges_perm : (M.edges.toList.map Edge.bare).Perm (N.edges.toList.map Edge.bare)
  source_le : ∀ (v : Nat) (t t' : TerminalWeights), N.terminals[v]? = some t →
    M.terminals[v]? = some t' → t.source ≤ t'.source
  sink_le : ∀ (v : Nat) (t t' : TerminalWeights), N.terminals[v]? = some t →
    M.terminals[v]? = some t' → t'.sink ≤ t.sink

/-- A sum over the nodes of a network, as one over those of another with as many. -/
theorem nodeSum_of_numNodes_eq (h : M.numNodes = N.numNodes) (p : Nat → TerminalWeights → Int) :
    M.nodeSum p = N.nodeSum fun v _ => p v (M.terminals[v]?.getD .zero) := by
  rw [nodeSum_eq, nodeSum_eq]
  refine Fintype.sum_equiv (finCongr h) _ _ ?_
  intro v
  show p v M.terminals[v.val] = p v (M.terminals[v.val]?.getD .zero)
  rw [Array.getElem?_eq_getElem v.isLt]
  rfl

namespace StrongerPull

/-- The edges carry as much across a cut as before. -/
theorem sum_crossing_eq (h : StrongerPull N M) (side : Nat → Segment) :
    (M.edges.toList.map (Edge.crossing side)).sum =
      (N.edges.toList.map (Edge.crossing side)).sum := by
  -- what is recorded on the edges does not count
  have hbare : ∀ es : List Edge, es.map (Edge.crossing side) =
      (es.map Edge.bare).map (Edge.crossing side) := by
    intro es
    rw [List.map_map]
    rfl
  rw [hbare, hbare N.edges.toList]
  exact (h.edges_perm.map _).sum_eq

/-- The exchange of two cuts, over the edges. -/
theorem edgeSum_meet_add_join_le (hN : N.bare.WellFormed) (side other : Nat → Segment) :
    (N.edgeSum fun _ e => e.crossing fun v => (side v).meet (other v)) +
        (N.edgeSum fun _ e => e.crossing fun v => (side v).join (other v)) ≤
      (N.edgeSum fun _ e => e.crossing side) + N.edgeSum fun _ e => e.crossing other := by
  rw [edgeSum_add, edgeSum_add]
  apply edgeSum_le
  intro k e he
  have hmem : e.bare ∈ N.bare.edges := Array.mem_of_getElem? (by rw [getElem?_bare, he]; rfl)
  exact Edge.crossing_meet_add_join_le (hN.capacity_nonneg _ hmem)
    (hN.reverseCapacity_nonneg _ hmem) side other

/-- The exchange of two cuts, over the nodes. -/
theorem nodeSum_meet_add_join_le (h : StrongerPull N M) (side other : Nat → Segment) :
    (N.nodeSum fun v t => t.crossing ((side v).meet (other v))) +
        (M.nodeSum fun v t => t.crossing ((side v).join (other v))) ≤
      (N.nodeSum fun v t => t.crossing (side v)) + M.nodeSum fun v t => t.crossing (other v) := by
  rw [nodeSum_of_numNodes_eq h.numNodes_eq, nodeSum_of_numNodes_eq h.numNodes_eq, nodeSum_add,
    nodeSum_add]
  apply nodeSum_le
  intro v t ht
  have hlt : v < M.numNodes := by
    rw [h.numNodes_eq]
    exact (Array.getElem?_eq_some_iff.1 ht).1
  have ht' : M.terminals[v]? = some M.terminals[v] := Array.getElem?_eq_getElem hlt
  rw [ht', Option.getD_some]
  exact TerminalWeights.crossing_meet_add_join_le (h.source_le v t _ ht ht')
    (h.sink_le v t _ ht ht') (side v) (other v)

/-- **The exchange of two cuts**, of which the second is taken with the stronger pull. -/
theorem cutCapacity_meet_add_join_le (h : StrongerPull N M) (hN : N.bare.WellFormed)
    (side other : Nat → Segment) :
    N.cutCapacity (fun v => (side v).meet (other v)) +
        M.cutCapacity (fun v => (side v).join (other v)) ≤
      N.cutCapacity side + M.cutCapacity other := by
  have hedge := edgeSum_meet_add_join_le hN side other
  have hnode := h.nodeSum_meet_add_join_le side other
  simp only [edgeSum_eq_sum] at hedge
  simp only [cutCapacity_eq_sum, h.sum_crossing_eq]
  omega

/-- **The least minimum cut before lies in every minimum cut afterwards.** -/
theorem source_of_source (h : StrongerPull N M) (hN : N.bare.WellFormed)
    (hside : N.IsLeastMinimumCut side) (hother : M.IsMinimumCut other) {v : Nat}
    (hv : side v = .source) : other v = .source := by
  have hexchange := h.cutCapacity_meet_add_join_le hN side other
  have hjoin := hother fun v => (side v).join (other v)
  -- what the two cuts share is a minimum cut before, and so holds the least one
  have hmeet : N.IsMinimumCut fun v => (side v).meet (other v) := by
    intro another
    have hle := hside.minimum another
    omega
  exact Segment.eq_source_of_meet (hside.least _ hmeet v hv)

end StrongerPull

end Network

namespace Graph

variable {r r' : Register} {bits bits' : Nat} {g : Graph r} {g' : Graph r'} {x : Solved r}
  {x' : Solved r'}

/-! ## Solved graphs -/

/-- The bridge with a weaker bond of its far end to the sink: now only the cut behind the edge is
a minimum cut, and both nodes lie on the side of the source. -/
def weakBridge (r : Register) : Graph r :=
  (session r .standard
    [.edit (.addNodes 2), .edit (.setTerminalWeights 0 6 0), .edit (.setTerminalWeights 1 0 2),
      .edit (.addEdge 0 1 3 1)]).2

theorem weakBridge_built : (weakBridge (.signed 8)).Built := ⟨_, _, by decide, rfl⟩

theorem weakBridge_strongerPull :
    (bridge (.signed 8)).network.StrongerPull (weakBridge (.signed 8)).network := by
  have hold : (bridge (.signed 8)).network.terminals = #[⟨5, 0⟩, ⟨0, 3⟩] := by decide +kernel
  have hnew : (weakBridge (.signed 8)).network.terminals = #[⟨6, 0⟩, ⟨0, 2⟩] := by decide +kernel
  have hboth : ∀ (v : Nat) (t t' : TerminalWeights),
      (#[⟨5, 0⟩, ⟨0, 3⟩] : Array TerminalWeights)[v]? = some t →
        (#[⟨6, 0⟩, ⟨0, 2⟩] : Array TerminalWeights)[v]? = some t' →
          t.source ≤ t'.source ∧ t'.sink ≤ t.sink := by
    intro v t t' ht ht'
    match v with
    | 0 => cases ht; cases ht'; decide
    | 1 => cases ht; cases ht'; decide
    | v + 2 => cases ht
  refine ⟨by decide +kernel, ?_, ?_, ?_⟩
  · rw [show (weakBridge (.signed 8)).network.edges = (bridge (.signed 8)).network.edges by
      decide +kernel]
  · rw [hold, hnew]
    exact fun v t t' ht ht' => (hboth v t t' ht ht').1
  · rw [hold, hnew]
    exact fun v t t' ht ht' => (hboth v t t' ht ht').2

/-- **A stronger pull to the source keeps the nodes on its side**: every node that the first graph
reports on the side of the source, the second one reports there too. -/
theorem solve_of_strongerPull (hr : r.IsMachine bits) (hr' : r'.IsMachine bits') (hg : g.Built)
    (hg' : g'.Built) (h : g.network.StrongerPull g'.network) (hx : g.solve = .ok x)
    (hx' : g'.solve = .ok x') :
    (∀ v, x.graph.segmentOf v = .ok .source → x'.graph.segmentOf v = .ok .source) ∧
      x.graph.minimumCut ⊆ x'.graph.minimumCut := by
  obtain ⟨hleast, -⟩ := hg.reportsLeast hr hx
  obtain ⟨hleast', -⟩ := hg'.reportsLeast hr' hx'
  have hstay : ∀ v, x.graph.segment? v = some .source → x'.graph.segment? v = some .source := by
    intro v hv
    rw [segment?_eq, numNodes_of_solve hr hg hx] at hv
    rw [segment?_eq, numNodes_of_solve hr' hg' hx', numNodes, h.numNodes_eq]
    split at hv
    · rename_i hlt
      rw [numNodes] at hlt
      rw [if_pos hlt, h.source_of_source (hg.valid hr).wellFormed hleast hleast'.minimum
        (Option.some.inj hv)]
    · cases hv
  constructor
  · intro v hv
    rw [segmentOf_eq_ok_iff] at hv ⊢
    exact hstay v hv
  · intro v hv
    rw [mem_minimumCut] at hv ⊢
    exact hstay v hv

theorem solve_of_strongerPull_bridge :
    ∃ x x', (bridge (.signed 8)).solve = .ok x ∧ (weakBridge (.signed 8)).solve = .ok x' ∧
      x.graph.minimumCut = [0] ∧ x'.graph.minimumCut = [0, 1] ∧
      (∀ v, x.graph.segmentOf v = .ok .source → x'.graph.segmentOf v = .ok .source) ∧
        x.graph.minimumCut ⊆ x'.graph.minimumCut := by
  obtain ⟨x, hx, -, hcut⟩ := exists_solve_bridge
  have hsolve : (weakBridge (.signed 8)).solve.map (fun x => x.graph.minimumCut) = .ok [0, 1] := by
    decide +kernel
  obtain ⟨x', hx', hcut'⟩ := map_eq_ok_iff.1 hsolve
  exact ⟨x, x', hx, hx', hcut, hcut', solve_of_strongerPull ⟨by decide, Or.inl rfl⟩
    ⟨by decide, Or.inl rfl⟩ bridge_built weakBridge_built weakBridge_strongerPull hx hx'⟩

end Graph

end MinCut
