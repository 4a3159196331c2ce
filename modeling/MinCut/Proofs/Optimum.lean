/-
# What a solved graph reports

A graph that was solved reports a flow and a cut.  The flow is that of a complete search, so
it is as large as any flow through the network and as small as any cut; the nodes reported on
the side of the source are those of the source tree, so they lie there in every minimum cut.

Key facts:
* `solve_isOptimal` : the flow is a maximum flow and the cut a minimum cut;
* `minimumCut_isLeast` : the nodes on the source side are as few as in any minimum cut.
-/
import MinCut.Graph.Query
import MinCut.Proofs.Sessions

namespace MinCut

/-- The cut with the nodes `vs` on the side of the source. -/
def cutAround (vs : List Nat) (v : Nat) : Segment := if v ∈ vs then .source else .sink

/-- **The least minimum cut**: the nodes `vs` are the source side of a minimum cut, and they
belong to the source side of every minimum cut. -/
structure Network.IsLeastCut (N : Network) (vs : List Nat) : Prop where
  minimum : N.IsMinimumCut (cutAround vs)
  least : ∀ side, N.IsMinimumCut side → ∀ v ∈ vs, side v = .source

/-- The value `f` is that of a flow which sends `x k` along every edge `k`, and no flow has more. -/
structure Network.IsMaximumFlow (N : Network) (x : Nat → Int) (f : Int) : Prop where
  attained : ∃ F : FlowAssignment, N.IsFeasible F ∧ F.along = x ∧ N.flowValue F = f
  greatest : ∀ F : FlowAssignment, N.IsFeasible F → N.flowValue F ≤ f

namespace Graph

variable {r : Register} {g : Graph r} {x : Solved r} {m : Int} {bits v : Nat} {s₀ s : Search}
  {as : List Augmentation} {es : Array Edge}

/-! ## Reports -/

/-- The cut that a graph reports; nodes that do not exist count as on the side of the sink. -/
def cut (g : Graph r) (v : Nat) : Segment := (g.segment? v).getD .sink

/-- The net flow along each edge that a graph reports. -/
def flowAlong (g : Graph r) (k : Nat) : Int := ((g.edge? k).map Edge.flow).getD 0

theorem segmentOf_eq_ok_iff {side : Segment} :
    g.segmentOf v = .ok side ↔ g.segment? v = some side := by
  unfold segmentOf
  cases g.segment? v <;> simp

/-- The cut reported is the cut around the nodes reported. -/
theorem cutAround_minimumCut (g : Graph r) : cutAround g.minimumCut = g.cut := by
  funext v
  unfold cutAround cut
  simp only [mem_minimumCut]
  cases g.segment? v with
  | none => rfl
  | some side => cases side <;> rfl

/-- The cut that a solved graph reports is that of its search. -/
theorem Solves.cut_eq (h : Solves g.network m s₀ s as es) :
    (g.solvedWith s₀ s as es).graph.cut = s.segment := by
  have hsize : s.forest.labels.size = g.network.numNodes := by
    rw [h.complete.sound.size_eq, h.complete.balances.size_eq, Network.numNodes_bare]
  funext v
  show (if v < g.network.numNodes then some (s.segment v) else none).getD .sink = s.segment v
  by_cases hv : v < g.network.numNodes
  · rw [if_pos hv]
    rfl
  · have hnone : s.forest.labels[v]? = none := by
      rw [Array.getElem?_eq_none_iff]
      omega
    rw [if_neg hv, Search.segment, hnone]
    rfl

/-- The net flows that a solved graph reports are those of its search. -/
theorem Solves.flowAlong_eq (h : Solves g.network m s₀ s as es) :
    (g.solvedWith s₀ s as es).graph.flowAlong = s.residual.arcs.along g.network.bare := by
  funext k
  show ((es[k]?).map Edge.flow).getD 0 = _
  rw [h.getElem?_edges]
  cases he : g.network.edges[k]? with
  | none =>
    simp [ArcTable.along, Network.getElem?_bare, he]
  | some e => rfl

/-! ## The flow and the cut -/

/-- **The flow reported is a maximum flow and the cut reported a minimum cut**: the flow is the
capacity of the cut, no cut has less capacity, and no flow through the network sends more. -/
theorem solve_isOptimal (hr : r.IsMachine bits) (hg : g.Built) (hx : g.solve = .ok x) :
    x.flow = g.network.cutCapacity x.graph.cut ∧
      (∀ side, x.flow ≤ g.network.cutCapacity side) ∧
      g.network.IsMaximumFlow x.graph.flowAlong x.flow := by
  have hv := hg.valid hr
  obtain ⟨s₀, s, as, es, hs, rfl⟩ := hv.exists_solves hr hx
  have hN := hv.wellFormed
  have hb := hs.complete.balances
  have hfeasible := Network.isFeasible_bare_iff.1 (hb.isFeasible hN)
  -- no flow exceeds any cut, and the flow found has the value of the cut found
  have hle : ∀ side F, g.network.IsFeasible F →
      g.network.flowValue F ≤ g.network.cutCapacity side := by
    intro side F hF
    rw [← Network.cutCapacity_bare]
    exact Network.flowValue_le_cutCapacity hN (Network.isFeasible_bare_iff.2 hF) side
  have hflow : (g.solvedWith s₀ s as es).flow =
      g.network.flowValue (s.residual.flowOf g.network.bare) := hb.flowValue_eq.symm
  have hcut : (g.solvedWith s₀ s as es).flow =
      g.network.cutCapacity (g.solvedWith s₀ s as es).graph.cut := by
    rw [hs.cut_eq, ← Network.cutCapacity_bare]
    exact hs.complete.flow_eq_cutCapacity hN
  refine ⟨hcut, ?_, ⟨⟨_, hfeasible, ?_, hflow.symm⟩, ?_⟩⟩
  · intro side
    rw [hflow]
    exact hle side _ hfeasible
  · exact hs.flowAlong_eq.symm
  · intro F hF
    rw [hcut]
    exact hle _ F hF

theorem solve_isOptimal_bridge : ∃ x, (bridge (.signed 8)).solve = .ok x ∧ x.flow = 3 ∧
    x.flow = (bridge (.signed 8)).network.cutCapacity x.graph.cut ∧
      (∀ side, x.flow ≤ (bridge (.signed 8)).network.cutCapacity side) ∧
      (bridge (.signed 8)).network.IsMaximumFlow x.graph.flowAlong x.flow := by
  obtain ⟨x, hx, hflow, -⟩ := exists_solve_bridge
  exact ⟨x, hx, hflow, solve_isOptimal ⟨by decide, Or.inl rfl⟩ bridge_built hx⟩

/-- **The cut reported is the least minimum cut.** -/
theorem minimumCut_isLeast (hr : r.IsMachine bits) (hg : g.Built) (hx : g.solve = .ok x) :
    (∀ v, v ∈ x.graph.minimumCut ↔ x.graph.segmentOf v = .ok .source) ∧
      g.network.IsLeastCut x.graph.minimumCut := by
  have hv := hg.valid hr
  obtain ⟨s₀, s, as, es, hs, rfl⟩ := hv.exists_solves hr hx
  have hN := hv.wellFormed
  have hb := hs.complete.balances
  refine ⟨fun v => mem_minimumCut.trans segmentOf_eq_ok_iff.symm, ⟨?_, ?_⟩⟩
  · rw [cutAround_minimumCut, hs.cut_eq, ← Network.isMinimumCut_bare_iff]
    intro other
    rw [← hs.complete.flow_eq_cutCapacity hN, ← hb.flowValue_eq]
    exact Network.flowValue_le_cutCapacity hN (hb.isFeasible hN) other
  · intro side hside v hmem
    have hseg : s.segment v = .source := by
      rw [← hs.cut_eq, ← cutAround_minimumCut]
      exact if_pos hmem
    exact hs.complete.side_of_segment hN (Network.isMinimumCut_bare_iff.2 hside) hseg

theorem minimumCut_isLeast_bridge : ∃ x, (bridge (.signed 8)).solve = .ok x ∧
    x.graph.minimumCut = [0] ∧ (bridge (.signed 8)).network.IsLeastCut x.graph.minimumCut := by
  obtain ⟨x, hx, -, hcut⟩ := exists_solve_bridge
  exact ⟨x, hx, hcut, (minimumCut_isLeast ⟨by decide, Or.inl rfl⟩ bridge_built hx).2⟩

end Graph

end MinCut
