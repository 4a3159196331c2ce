/-
# Networks that are written down otherwise

To write a network down otherwise changes the order in which a search meets its arcs, and with it
every tree, every augmentation and the flow along the edges.  It does not change the capacity of
any cut, and a solved graph reports the least minimum cut, so it does not change the report.

Key facts:
* `Rewriting.sameCuts` : every cut keeps its capacity, by induction on the changes;
* `IsLeastMinimumCut.comp` : the least minimum cut is renumbered along with the nodes;
* `solve_of_rewriting` : graphs whose networks are the same up to the writing report the same.
-/
import MinCut.Network.Rewriting
import MinCut.Proofs.LeastCuts

namespace MinCut

/-! ## What an edge carries across a cut -/

namespace Edge

variable {e : Edge} {ps : List Edge} {side : Nat → Segment}

/-- An edge carries across a cut what it carries when it is named from its other end. -/
theorem crossing_reversed (side : Nat → Segment) (e : Edge) :
    e.reversed.crossing side = e.crossing side := by
  unfold crossing reversed
  cases side e.tail <;> cases side e.head <;> rfl

theorem crossing_renumber (π : Nat → Nat) (side : Nat → Segment) (e : Edge) :
    (e.renumber π).crossing side = e.crossing (side ∘ π) := rfl

/-- Parallel edges together carry across a cut as much as the edge that was split into them: all
of them cross it in the same direction. -/
theorem Splits.sum_crossing (h : e.Splits ps) (side : Nat → Segment) :
    (ps.map (crossing side)).sum = e.crossing side := by
  have hmap : ∀ f : Edge → Int, (∀ p ∈ ps, p.crossing side = f p) →
      (ps.map (crossing side)).sum = (ps.map f).sum := by
    intro f hf
    rw [List.map_congr_left hf]
  have hends : ∀ p ∈ ps, p.tail = e.tail ∧ p.head = e.head := fun p hp =>
    ⟨h.tail_eq p hp, h.head_eq p hp⟩
  cases ht : side e.tail <;> cases hh : side e.head
  · rw [hmap fun _ => 0, crossing_of_side_eq (ht.trans hh.symm)]
    · simp
    · intro p hp
      exact crossing_of_side_eq (by rw [(hends p hp).1, (hends p hp).2, ht, hh])
  · rw [hmap capacity, h.capacity_eq]
    · simp only [crossing, ht, hh]
    · intro p hp
      simp only [crossing, hends p hp, ht, hh]
  · rw [hmap reverseCapacity, h.reverseCapacity_eq]
    · simp only [crossing, ht, hh]
    · intro p hp
      simp only [crossing, hends p hp, ht, hh]
  · rw [hmap fun _ => 0, crossing_of_side_eq (ht.trans hh.symm)]
    · simp
    · intro p hp
      exact crossing_of_side_eq (by rw [(hends p hp).1, (hends p hp).2, ht, hh])

end Edge

namespace Network

variable {N M K : Network} {π ρ : Equiv.Perm Nat} {side : Nat → Segment}

/-! ## Every cut keeps its capacity -/

/-- The node `v` of `N` is the node `π v` of `M`, and cuts of the same nodes have the same
capacity. -/
structure SameCuts (π : Equiv.Perm Nat) (N M : Network) : Prop where
  lt_iff : ∀ v, π v < M.numNodes ↔ v < N.numNodes
  cutCapacity_eq : ∀ side, M.cutCapacity side = N.cutCapacity (side ∘ π)

theorem SameCuts.symm (h : SameCuts π N M) : SameCuts π.symm M N where
  lt_iff v := by
    rw [← h.lt_iff, Equiv.apply_symm_apply]
  cutCapacity_eq side := by
    rw [h.cutCapacity_eq, Function.comp_assoc, Equiv.symm_comp_self, Function.comp_id]

theorem SameCuts.trans (h : SameCuts π N M) (h' : SameCuts ρ M K) : SameCuts (π.trans ρ) N K where
  lt_iff v := (h'.lt_iff (π v)).trans (h.lt_iff v)
  cutCapacity_eq side := by
    rw [h'.cutCapacity_eq, h.cutCapacity_eq]
    rfl

/-- Two lists of edges that carry as much across every cut belong to networks with the same
cuts. -/
theorem sameCuts_ofEdges {es fs : List Edge} (ts : Array TerminalWeights)
    (h : ∀ side, (fs.map (Edge.crossing side)).sum = (es.map (Edge.crossing side)).sum) :
    SameCuts (Equiv.refl Nat) (ofEdges es ts) (ofEdges fs ts) where
  lt_iff _ := Iff.rfl
  cutCapacity_eq side := by
    rw [cutCapacity_eq_sum, cutCapacity_eq_sum]
    show (fs.map (Edge.crossing side)).sum + _ = (es.map (Edge.crossing side)).sum + _
    rw [h]
    rfl

/-- Nodes that are numbered otherwise number as many. -/
theorem lt_numNodes_iff (h : ∀ v : Nat, M.terminals[π v]? = N.terminals[v]?) (v : Nat) :
    π v < M.numNodes ↔ v < N.numNodes := by
  have hnone := congrArg Option.isSome (h v)
  rw [Bool.eq_iff_iff] at hnone
  simpa [numNodes] using hnone

/-- A sum over the nodes does not depend on how they are numbered. -/
theorem nodeSum_renumber (h : ∀ v : Nat, M.terminals[π v]? = N.terminals[v]?)
    (p : Nat → TerminalWeights → Int) : M.nodeSum p = N.nodeSum fun v t => p (π v) t := by
  rw [nodeSum_eq, nodeSum_eq]
  symm
  have hlt := lt_numNodes_iff h
  have hinv : ∀ v, π.symm v < N.numNodes ↔ v < M.numNodes := fun v => by
    rw [← hlt, Equiv.apply_symm_apply]
  refine Finset.sum_bij' (fun v _ => ⟨π v, (hlt v).2 v.isLt⟩)
    (fun v _ => ⟨π.symm v, (hinv v).2 v.isLt⟩) (by simp) (by simp) (by simp) (by simp) ?_
  intro v _
  have hv := h v
  rw [Array.getElem?_eq_getElem v.isLt, Array.getElem?_eq_getElem ((hlt v).2 v.isLt)] at hv
  exact congrArg (p (π v)) (Option.some.inj hv).symm

/-- **To write a network down otherwise keeps the capacity of every cut.** -/
theorem Rewriting.sameCuts (h : Rewriting π N M) : SameCuts π N M := by
  induction h with
  | reorder ts hperm =>
    apply sameCuts_ofEdges
    intro side
    exact (hperm.map _).sum_eq.symm
  | reverse es fs e ts =>
    apply sameCuts_ofEdges
    intro side
    simp only [List.map_append, List.map_cons, Edge.crossing_reversed]
  | split es fs ts hsplit =>
    apply sameCuts_ofEdges
    intro side
    simp only [List.map_append, List.map_cons, List.sum_append, List.sum_cons,
      hsplit.sum_crossing side]
    ring
  | renumber π hedges hterminals =>
    refine ⟨lt_numNodes_iff hterminals, ?_⟩
    intro side
    have hcrossing : Edge.crossing side ∘ Edge.renumber π = Edge.crossing (side ∘ π) := by
      funext e
      exact Edge.crossing_renumber π side e
    rw [cutCapacity_eq_sum, cutCapacity_eq_sum, hedges, nodeSum_renumber hterminals,
      Array.toList_map, List.map_map, hcrossing]
    rfl
  | symm _ ih => exact ih.symm
  | trans _ _ ih ih' => exact ih.trans ih'

/-- **The least minimum cut is renumbered along with the nodes.** -/
theorem IsLeastMinimumCut.comp (h : SameCuts π N M) (hM : M.IsLeastMinimumCut side) :
    N.IsLeastMinimumCut (side ∘ π) := by
  -- a cut of `N` is one of `M`, seen through the numbering
  have hback : ∀ other, N.cutCapacity other = M.cutCapacity (other ∘ π.symm) :=
    h.symm.cutCapacity_eq
  constructor
  · intro other
    rw [← h.cutCapacity_eq, hback]
    exact hM.minimum _
  · intro other hother v hv
    have hmin : M.IsMinimumCut (other ∘ π.symm) := by
      intro another
      rw [← hback, h.cutCapacity_eq]
      exact hother _
    have hs := hM.least _ hmin (π v) hv
    rwa [Function.comp_apply, Equiv.symm_apply_apply] at hs

end Network

namespace Graph

variable {r r' : Register} {bits bits' : Nat} {g : Graph r} {g' : Graph r'} {x : Solved r}
  {x' : Solved r'} {π : Equiv.Perm Nat}

/-! ## What is reported -/

/-- The bridge with its two nodes exchanged and its edge split, one part named from its other end
and listed first, in a graph that leaves nodes where they hang. -/
def twinBridge (r : Register) : Graph r :=
  (session r ⟨0, 0, false⟩
    [.edit (.addNodes 2), .edit (.setTerminalWeights 1 5 0), .edit (.setTerminalWeights 0 0 3),
      .edit (.addEdge 0 1 1 1), .edit (.addEdge 1 0 2 0)]).2

theorem twinBridge_built : (twinBridge (.signed 8)).Built := ⟨_, _, by decide, rfl⟩

theorem twinBridge_rewriting : Network.Rewriting (Equiv.swap 0 1) (bridge (.signed 8)).network
    (twinBridge (.signed 8)).network := by
  have hnumbers : Network.Rewriting (Equiv.swap 0 1) (bridge (.signed 8)).network
      (.ofEdges [.idle 1 0 3 1] #[⟨0, 3⟩, ⟨5, 0⟩]) := by
    apply Network.Rewriting.renumber
    · decide +kernel
    · intro v
      match v with
      | 0 => rfl
      | 1 => rfl
      | v + 2 => rw [Equiv.swap_apply_of_ne_of_ne (by omega) (by omega)]; rfl
  have hparts : (Edge.idle 1 0 3 1).Splits [.idle 1 0 1 1, .idle 1 0 2 0] :=
    ⟨by decide, by decide, by decide, by decide⟩
  have hsplit : Network.Rewriting (Equiv.refl Nat) (.ofEdges [.idle 1 0 3 1] #[⟨0, 3⟩, ⟨5, 0⟩])
      (.ofEdges [.idle 1 0 1 1, .idle 1 0 2 0] #[⟨0, 3⟩, ⟨5, 0⟩]) :=
    .split [] [] _ hparts
  have hreverse : Network.Rewriting (Equiv.refl Nat)
      (.ofEdges [.idle 1 0 1 1, .idle 1 0 2 0] #[⟨0, 3⟩, ⟨5, 0⟩])
      (twinBridge (.signed 8)).network :=
    .reverse [] [.idle 1 0 2 0] (.idle 1 0 1 1) _
  exact (hnumbers.trans hsplit).trans hreverse

/-- **Graphs whose networks are the same up to the writing report the same** when both can be
solved, each with its own settings: the same flow, and for every node the same side. -/
theorem solve_of_rewriting (hr : r.IsMachine bits) (hr' : r'.IsMachine bits') (hg : g.Built)
    (hg' : g'.Built) (h : Network.Rewriting π g.network g'.network) (hx : g.solve = .ok x)
    (hx' : g'.solve = .ok x') :
    x'.flow = x.flow ∧
      ∀ v side, x'.graph.segmentOf (π v) = .ok side ↔ x.graph.segmentOf v = .ok side := by
  obtain ⟨hleast, hflow⟩ := hg.reportsLeast hr hx
  obtain ⟨hleast', hflow'⟩ := hg'.reportsLeast hr' hx'
  have hcut : x.graph.cut = x'.graph.cut ∘ π := hleast.unique (hleast'.comp h.sameCuts)
  constructor
  · rw [hflow, hflow', h.sameCuts.cutCapacity_eq, hcut]
  · intro v side
    have hlt : π v < x'.graph.numNodes ↔ v < x.graph.numNodes := by
      rw [numNodes_of_solve hr hg hx, numNodes_of_solve hr' hg' hx']
      exact h.sameCuts.lt_iff v
    rw [segmentOf_eq_ok_iff, segmentOf_eq_ok_iff, segment?_eq, segment?_eq, hcut]
    simp only [hlt, Function.comp_apply]

theorem solve_of_rewriting_bridge :
    ∃ x x', (bridge (.signed 8)).solve = .ok x ∧ (twinBridge (.signed 8)).solve = .ok x' ∧
      x'.flow = x.flow ∧ ∀ v side, x'.graph.segmentOf (Equiv.swap 0 1 v) = .ok side ↔
        x.graph.segmentOf v = .ok side := by
  obtain ⟨x, hx, -, -⟩ := exists_solve_bridge
  have hsolve : ((twinBridge (.signed 8)).solve.map Solved.flow) = .ok 3 := by decide +kernel
  obtain ⟨x', hx', -⟩ := map_eq_ok_iff.1 hsolve
  exact ⟨x, x', hx, hx', solve_of_rewriting ⟨by decide, Or.inl rfl⟩ ⟨by decide, Or.inl rfl⟩
    bridge_built twinBridge_built twinBridge_rewriting hx hx'⟩

end Graph

end MinCut
