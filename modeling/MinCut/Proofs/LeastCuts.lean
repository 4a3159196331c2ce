/-
# Least minimum cuts

A network can have many minimum cuts, but it has one whose source side lies in the source sides
of all others.  That is the cut which a solved graph reports.  So what a graph reports is settled
by the capacities of its cuts, and by no step of the search: graphs whose cuts have the same
capacities report the same.

Key facts:
* `IsLeastMinimumCut.unique` : there is only one such cut;
* `cutCapacity_eq_sum` : the capacity of a cut is collected along the list of edges, in any order;
* `Built.reportsLeast` : a solved graph reports that cut, and its capacity as the flow.
-/
import MinCut.Proofs.SolvedGraphs
import MinCut.Proofs.Optimum

namespace MinCut

namespace Network

variable {N : Network} {side other : Nat → Segment}

/-- **The least minimum cut**: a minimum cut whose source side lies in that of every other. -/
structure IsLeastMinimumCut (N : Network) (side : Nat → Segment) : Prop where
  minimum : N.IsMinimumCut side
  least : ∀ other, N.IsMinimumCut other → ∀ v, side v = .source → other v = .source

/-- Two least minimum cuts lie in each other. -/
theorem IsLeastMinimumCut.unique (h : N.IsLeastMinimumCut side) (h' : N.IsLeastMinimumCut other) :
    side = other := by
  funext v
  have hle := h.least other h'.minimum v
  have hge := h'.least side h.minimum v
  cases hs : side v <;> cases ho : other v <;> simp_all

/-- A sum over all edges that does not ask for their numbers. -/
theorem edgeSum_eq_sum (N : Network) (f : Edge → Int) :
    (N.edgeSum fun _ e => f e) = (N.edges.toList.map f).sum := by
  rw [edgeSum_eq, ← List.sum_ofFn]
  congr 1
  apply List.ext_getElem
  · simp
  · intro k h₁ h₂
    simp

/-- The capacity of a cut, along the list of edges. -/
theorem cutCapacity_eq_sum (N : Network) (side : Nat → Segment) :
    N.cutCapacity side = (N.edges.toList.map (Edge.crossing side)).sum +
      N.nodeSum fun v t => t.crossing (side v) := by
  rw [cutCapacity, edgeSum_eq_sum]

end Network

namespace Graph

variable {r : Register} {g : Graph r} {x : Solved r} {bits : Nat}

/-- The sides that a graph reports are those of its cut. -/
theorem segment?_eq (g : Graph r) (v : Nat) :
    g.segment? v = if v < g.numNodes then some (g.cut v) else none := by
  have hsome := g.isSome_segment? v
  unfold cut
  split
  · rename_i hv
    rw [decide_eq_true hv, Option.isSome_iff_exists] at hsome
    obtain ⟨side, hside⟩ := hsome
    rw [hside, Option.getD_some]
  · rename_i hv
    rw [decide_eq_false hv, Option.isSome_eq_false_iff, Option.isNone_iff_eq_none] at hsome
    exact hsome

/-- A solved graph has the nodes that it had before. -/
theorem numNodes_of_solve (hr : r.IsMachine bits) (hg : g.Built) (hx : g.solve = .ok x) :
    x.graph.numNodes = g.numNodes := by
  obtain ⟨s₀, s, as, es, -, rfl⟩ := (hg.valid hr).exists_solves hr hx
  rfl

/-- **What a solve reports** : the least minimum cut of the network, and its capacity. -/
theorem Built.reportsLeast (hr : r.IsMachine bits) (hg : g.Built) (hx : g.solve = .ok x) :
    g.network.IsLeastMinimumCut x.graph.cut ∧ x.flow = g.network.cutCapacity x.graph.cut := by
  have hv := hg.valid hr
  have hN := hv.wellFormed
  obtain ⟨s₀, s, as, es, hs, rfl⟩ := hv.exists_solves hr hx
  rw [hs.cut_eq]
  refine ⟨⟨Network.isMinimumCut_bare_iff.1 (hs.complete.isMinimumCut hN), ?_⟩, ?_⟩
  · intro other hother v hsource
    exact hs.complete.side_of_segment hN (Network.isMinimumCut_bare_iff.2 hother) hsource
  · rw [← Network.cutCapacity_bare]
    exact hs.complete.flow_eq_cutCapacity hN

end Graph

end MinCut
