/-
# The accounts of a flow

A balanced residual network keeps the accounts of its flow: what each edge carries is within
its capacities, what a node has lost of its terminal weights is what leaves it along the
edges, and the value of the flow is what all nodes have lost.  So the accounts are right at
every head of every solve, and so are those that a solved graph reports.

Key facts:
* `Balances.accountsFor` : the accounts of a balanced residual network;
* `accounts_hold` : the accounts at all heads, between all solves, and in all reports.
-/
import MinCut.Proofs.Heads
import MinCut.Proofs.Optimum

namespace MinCut

/-! ## Accounts -/

/-- **The accounts of a flow** of value `f` with the net flow `x k` along every edge `k`, which
leaves the residual capacity `y v` between every node `v` and the terminals. -/
structure Network.HasAccounts (N : Network) (x y : Nat → Int) (f : Int) : Prop where
  neg_reverseCapacity_le : ∀ k e, N.edges[k]? = some e → -e.reverseCapacity ≤ x k
  le_capacity : ∀ k e, N.edges[k]? = some e → x k ≤ e.capacity
  loop_eq : ∀ k e, N.edges[k]? = some e → e.isLoop = true → x k = 0
  between : ∀ v t, N.terminals[v]? = some t →
    0 ≤ y v ∧ y v ≤ t.source - t.sink ∨ t.source - t.sink ≤ y v ∧ y v ≤ 0
  conserved : ∀ v t, N.terminals[v]? = some t → t.source - t.sink - y v = N.netOutflow x v
  flow_eq_of_source : f = (N.nodeSum fun _ t => min t.source t.sink) +
    N.nodeSum fun v t => if t.sink < t.source then t.source - t.sink - y v else 0
  flow_eq_of_sink : f = (N.nodeSum fun _ t => min t.source t.sink) +
    N.nodeSum fun v t => if t.source < t.sink then y v - (t.source - t.sink) else 0

/-- The residual network keeps the accounts of `N`: with the net flow along an edge being what
its forward arc has lost, its reverse arc has gained as much. -/
structure Residual.AccountsFor (R : Residual) (N : Network) : Prop where
  size_pairs : R.arcs.pairs.size = N.edges.size
  size_excess : R.excess.size = N.numNodes
  along_eq : ∀ k e p, N.edges[k]? = some e → R.arcs.pairs[k]? = some p →
    R.arcs.along N k = e.capacity - p.forward ∧
      p.reverse = e.reverseCapacity + R.arcs.along N k
  accounts : N.HasAccounts (R.arcs.along N) R.excessAt R.flow

namespace Residual

variable {R : Residual} {N : Network}

/-- What the source could send is passed on, lost, or left. -/
theorem Balances.flow_eq_of_source (h : R.Balances N) :
    R.flow = (N.nodeSum fun _ t => min t.source t.sink) +
      N.nodeSum fun v t => if t.sink < t.source then t.source - t.sink - R.excessAt v else 0 := by
  have hsplit : (N.nodeSum fun _ t => t.source) = (N.nodeSum fun _ t => min t.source t.sink) +
      (N.nodeSum fun v t => if t.sink < t.source then t.source - t.sink - R.excessAt v else 0) +
      R.supply N := by
    rw [supply, Network.nodeSum_add, Network.nodeSum_add]
    apply Network.nodeSum_congr
    intro v t ht
    have hb := h.between v t ht
    split <;> omega
  have htotal := h.source_total
  omega

/-- What the sink could receive is passed on, lost, or left. -/
theorem Balances.flow_eq_of_sink (h : R.Balances N) :
    R.flow = (N.nodeSum fun _ t => min t.source t.sink) +
      N.nodeSum fun v t => if t.source < t.sink then R.excessAt v - (t.source - t.sink) else 0 := by
  have hsplit : (N.nodeSum fun _ t => t.sink) = (N.nodeSum fun _ t => min t.source t.sink) +
      (N.nodeSum fun v t => if t.source < t.sink then R.excessAt v - (t.source - t.sink) else 0) +
      R.demand N := by
    rw [demand, Network.nodeSum_add, Network.nodeSum_add]
    apply Network.nodeSum_congr
    intro v t ht
    have hb := h.between v t ht
    split <;> omega
  have htotal := h.sink_total
  omega

/-- What a node has lost of its terminal weights leaves it along the edges. -/
theorem Balances.lost_eq_netOutflow (hN : N.WellFormed) (h : R.Balances N) {v : Nat}
    {t : TerminalWeights} (ht : N.terminals[v]? = some t) :
    t.source - t.sink - R.excessAt v = N.netOutflow (R.arcs.along N) v := by
  have hc : _ = N.netOutflow (R.arcs.along N) v :=
    (h.isFeasible hN).conserved v (Array.getElem?_eq_some_iff.1 ht).1
  rw [← hc]
  simp only [flowOf, ht, Option.getD_some]
  omega

/-- **A balanced residual network keeps the accounts.** -/
theorem Balances.accountsFor (hN : N.WellFormed) (h : R.Balances N) : R.AccountsFor N where
  size_pairs := h.arcs.size_eq
  size_excess := h.size_eq
  along_eq k e p he hp := by
    have hsum := h.arcs.sum_eq k e he
    rw [ArcTable.capacity_of_getElem? (d := .forward) hp,
      ArcTable.capacity_of_getElem? (d := .reverse) hp] at hsum
    rw [ArcTable.along_of_getElem? he, ArcTable.capacity_of_getElem? (d := .forward) hp]
    refine ⟨rfl, ?_⟩
    simp only [ArcPair.residual] at hsum ⊢
    omega
  accounts :=
    { neg_reverseCapacity_le := (h.isFeasible hN).neg_reverseCapacity_le
      le_capacity := (h.isFeasible hN).le_capacity
      loop_eq := fun k e he hl => by
        rw [ArcTable.along_of_getElem? he, h.arcs.loop_eq k e he hl, Int.sub_self]
      between := h.between
      conserved := fun v t ht => h.lost_eq_netOutflow hN ht
      flow_eq_of_source := h.flow_eq_of_source
      flow_eq_of_sink := h.flow_eq_of_sink }

/-- Recorded flows do not matter for accounts. -/
theorem AccountsFor.of_bare (h : R.AccountsFor N.bare) : R.AccountsFor N := by
  have hedge : ∀ {k : Nat} {e : Edge}, N.edges[k]? = some e → N.bare.edges[k]? = some e.bare :=
    fun he => by rw [Network.getElem?_bare, he]; rfl
  have halong : R.arcs.along N.bare = R.arcs.along N := ArcTable.along_bare _ _
  have ha := h.accounts
  rw [halong] at ha
  refine ⟨?_, h.size_excess, ?_, ⟨?_, ?_, ?_, ha.between, ?_, ha.flow_eq_of_source,
    ha.flow_eq_of_sink⟩⟩
  · rw [h.size_pairs]
    simp [Network.bare]
  · intro k e p he hp
    rw [← halong]
    exact h.along_eq k e.bare p (hedge he) hp
  · intro k e he
    exact ha.neg_reverseCapacity_le k e.bare (hedge he)
  · intro k e he
    exact ha.le_capacity k e.bare (hedge he)
  · intro k e he hl
    exact ha.loop_eq k e.bare (hedge he) hl
  · intro v t ht
    rw [← Network.netOutflow_bare]
    exact ha.conserved v t ht

end Residual

namespace Graph

variable {r : Register} {bits : Nat}

/-- The residual capacity between each node and the terminals that a graph reports. -/
def residualAt (g : Graph r) (v : Nat) : Int := (g.terminalResidual? v).getD 0

/-- **The accounts are right** at every head of every solve of an admissible network and between
the solves; and so are the flows and residual capacities that a solved graph reports, which are
those of its search. -/
theorem accounts_hold (hr : r.IsMachine bits) :
    (∀ N : Network, N.Admissible r →
      (∀ x, AtHead r N x → x.search.residual.AccountsFor N) ∧
        ∀ s, SearchOf r N s → s.residual.AccountsFor N) ∧
    ∀ g : Graph r, g.Built → ∀ x, g.solve = .ok x →
      (∃ s, x.graph.search = some s ∧ s.residual.AccountsFor g.network ∧
        x.graph.flowAlong = s.residual.arcs.along g.network ∧
        x.graph.residualAt = s.residual.excessAt ∧ x.flow = s.residual.flow) ∧
      g.network.HasAccounts x.graph.flowAlong x.graph.residualAt x.flow := by
  refine ⟨fun N hN => ⟨?_, ?_⟩, ?_⟩
  · intro x hx
    exact (hx.sound hr.keeps hN.toWellFormed (hN.fits hr)).balances.accountsFor hN.toWellFormed
  · intro s hs
    exact (hs.balances hr.keeps hN.toWellFormed (hN.fits hr)).accountsFor hN.toWellFormed
  · intro g hg x hx
    have hv := hg.valid hr
    obtain ⟨s₀, s, as, es, hs, rfl⟩ := hv.exists_solves hr hx
    have hacc := (hs.complete.balances.accountsFor hv.wellFormed).of_bare
    have halong : (g.solvedWith s₀ s as es).graph.flowAlong = s.residual.arcs.along g.network := by
      rw [hs.flowAlong_eq, ArcTable.along_bare]
    refine ⟨⟨s, rfl, hacc, halong, rfl, rfl⟩, ?_⟩
    rw [halong]
    exact hacc.accounts

theorem bridge_admissible : (bridge (.signed 8)).network.Admissible (.signed 8) :=
  ⟨⟨by decide, by decide, by decide, by decide, by decide, by decide⟩, by decide, by decide,
    by decide +kernel⟩

/-- The head of the loop after the augmentation. -/
theorem exists_atHead_bridge :
    ∃ x, AtHead (.signed 8) (bridge (.signed 8)).network x ∧ x.search.residual.flow = 3 :=
  exists_atHead_of_headAfter true 1 (by decide +kernel)

theorem accounts_hold_bridge :
    (∃ x, AtHead (.signed 8) (bridge (.signed 8)).network x ∧ x.search.residual.flow = 3 ∧
      x.search.residual.AccountsFor (bridge (.signed 8)).network) ∧
    ∃ x, (bridge (.signed 8)).solve = .ok x ∧ x.flow = 3 ∧
      (bridge (.signed 8)).network.HasAccounts x.graph.flowAlong x.graph.residualAt x.flow := by
  obtain ⟨y, hy, hflow⟩ := exists_atHead_bridge
  obtain ⟨x, hx, hflow', -⟩ := exists_solve_bridge
  have hmachine : (Register.signed 8).IsMachine 8 := ⟨by decide, Or.inl rfl⟩
  exact ⟨⟨y, hy, hflow, ((accounts_hold hmachine).1 _ bridge_admissible).1 y hy⟩,
    ⟨x, hx, hflow', ((accounts_hold hmachine).2 _ bridge_built x hx).2⟩⟩

end Graph

end MinCut
