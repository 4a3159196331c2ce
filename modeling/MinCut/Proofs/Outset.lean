/-
# The residual network at the outset

Before any search, what can go from the source through a single node into the sink has gone
there, and all arcs have the capacities of their edges.  This residual network balances its
network.  It is the same in every register that has room for the capacities, for the partial
sums of the flow never exceed the smaller of the two terminal totals.

Key facts:
* `initialFlow_eq` and `excesses_eq` : the sums at the outset, in any register with room;
* `ofNetwork_eq` and `ofNetwork_spec` : the residual network at the outset exists and is balanced.
-/
import Mathlib.Data.Set.Finite.Lattice
import MinCut.Proofs.Balance

namespace MinCut

namespace Network

variable {N : Network} {m : Int}

/-- The capacities of `N` leave room below `m`: the two capacities of an edge can be summed,
and so can the weights of one of the two terminals. -/
structure Fits (N : Network) (m : Int) : Prop where
  pair_le : ∀ e ∈ N.edges, e.capacity + e.reverseCapacity ≤ m
  source_le : ∀ t ∈ N.terminals, t.source ≤ m
  sink_le : ∀ t ∈ N.terminals, t.sink ≤ m
  total_le : (N.nodeSum fun _ t => t.source) ≤ m ∨ (N.nodeSum fun _ t => t.sink) ≤ m

/-- A sum that does not ask for the number of the node. -/
theorem nodeSum_eq_sum_map (N : Network) (p : TerminalWeights → Int) :
    (N.nodeSum fun _ t => p t) = (N.terminals.toList.map p).sum := by
  have hfst : N.terminals.toList.zipIdx.foldr (fun q s => p q.1 + s) 0 =
      (N.terminals.toList.zipIdx.map Prod.fst).foldr (fun t s => p t + s) 0 := by
    rw [List.foldr_map]
  rw [nodeSum, hfst, List.zipIdx_map_fst, List.sum_eq_foldr, List.foldr_map]

/-- The smaller weights of all nodes add up to no more than either terminal total. -/
theorem sum_min_le (N : Network) :
    (N.nodeSum fun _ t => min t.source t.sink) ≤ (N.nodeSum fun _ t => t.source) ∧
      (N.nodeSum fun _ t => min t.source t.sink) ≤ (N.nodeSum fun _ t => t.sink) := by
  rw [nodeSum_eq, nodeSum_eq, nodeSum_eq]
  exact ⟨Finset.sum_le_sum fun v _ => Int.min_le_left _ _,
    Finset.sum_le_sum fun v _ => Int.min_le_right _ _⟩

/-- Below some number the capacities always leave room. -/
theorem exists_fits (N : Network) : ∃ m, N.Fits m := by
  obtain ⟨m, hm⟩ := (N.edges.toList.map (fun e => e.capacity + e.reverseCapacity) ++
    N.terminals.toList.map TerminalWeights.source ++ N.terminals.toList.map TerminalWeights.sink ++
      [N.nodeSum fun _ t => t.source]).finite_toSet.bddAbove
  simp only [mem_upperBounds, List.mem_append, List.mem_map, List.mem_singleton,
    Array.mem_toList_iff, Set.mem_ofPred_eq] at hm
  exact ⟨m, fun e he => hm _ (.inl (.inl (.inl ⟨e, he, rfl⟩))),
    fun t ht => hm _ (.inl (.inl (.inr ⟨t, ht, rfl⟩))),
    fun t ht => hm _ (.inl (.inr ⟨t, ht, rfl⟩)), .inl (hm _ (.inr rfl))⟩

end Network

namespace Residual

variable {N : Network} {m : Int} {r : Register} {R : Residual}

/-- An excess within the capacities fits as well. -/
theorem Within.excess_le (hR : R.Within N) (hN : N.WellFormed) (hm : N.Fits m) {v : Nat}
    (hv : v < R.excess.size) : -m ≤ R.excessAt v ∧ R.excessAt v ≤ m := by
  have hlt : v < N.terminals.size := Nat.lt_of_lt_of_eq hv hR.size_eq
  have ht : N.terminals[v]? = some N.terminals[v] := Array.getElem?_eq_getElem hlt
  have hmem := Array.mem_of_getElem? ht
  have hbetween := hR.between v _ ht
  have hsource := hN.source_nonneg _ hmem
  have hsink := hN.sink_nonneg _ hmem
  have hsource' := hm.source_le _ hmem
  have hsink' := hm.sink_le _ hmem
  omega

theorem supply_nonneg (R : Residual) (N : Network) : 0 ≤ R.supply N :=
  Network.nodeSum_nonneg fun _ _ _ => Int.le_max_right _ _

theorem demand_nonneg (R : Residual) (N : Network) : 0 ≤ R.demand N :=
  Network.nodeSum_nonneg fun _ _ _ => Int.le_max_right _ _

/-- The flow of a balanced residual network is not negative. -/
theorem Balances.flow_nonneg (h : R.Balances N) (hN : N.WellFormed) : 0 ≤ R.flow := by
  rw [← h.flowValue_eq]
  exact Network.nodeSum_nonneg fun v t ht => (h.isFeasible hN).fromSource_nonneg v t ht

/-- The flow never exceeds what either terminal can carry, so it fits. -/
theorem Balances.flow_le (h : R.Balances N) (hm : N.Fits m) : R.flow ≤ m := by
  have hsource := h.source_total
  have hsink := h.sink_total
  have hsupply := R.supply_nonneg N
  have hdemand := R.demand_nonneg N
  have htotal := hm.total_le
  omega

/-! ## Sums in a register with room -/

/-- The flow at the outset is the sum of the smaller terminal weights. -/
theorem initialFlow_eq (hr : r.Keeps m) {ts : List TerminalWeights}
    (hts : ∀ t ∈ ts, 0 ≤ min t.source t.sink)
    (hle : (ts.map fun t => min t.source t.sink).sum ≤ m) :
    initialFlow r ts = .ok (ts.map fun t => min t.source t.sink).sum := by
  have gen (s : Int) (hs : 0 ≤ s) (hle : s + (ts.map fun t => min t.source t.sink).sum ≤ m) :
      ts.foldlM (fun flow t => r.store (flow + min t.source t.sink)) s =
        .ok (s + (ts.map fun t => min t.source t.sink).sum) := by
    clear * - hr hts hs hle
    -- every partial sum lies between zero and the whole sum
    induction ts generalizing s with
    | nil => simp [pure, Except.pure]
    | cons t ts ih =>
      rw [List.map_cons, List.sum_cons] at hle ⊢
      have ht := hts t List.mem_cons_self
      have hts' := fun t' h' => hts t' (List.mem_cons_of_mem t h')
      have hrest : 0 ≤ (ts.map fun t => min t.source t.sink).sum :=
        List.sum_nonneg (by simpa using hts')
      rw [List.foldlM_cons, hr _ (by omega) (by omega), ← Int.add_assoc]
      exact ih hts' (s + min t.source t.sink) (by omega) (by omega)
  rw [initialFlow, gen 0 (Int.le_refl 0) (by omega), Int.zero_add]

/-- The excess at the outset is the difference of the terminal weights. -/
theorem excesses_eq (hr : r.Keeps m) {ts : List TerminalWeights}
    (hts : ∀ t ∈ ts, -m ≤ t.source - t.sink ∧ t.source - t.sink ≤ m) :
    excesses r ts = .ok (ts.map fun t => t.source - t.sink) := by
  unfold excesses
  induction ts with
  | nil => rfl
  | cons t ts ih =>
    have ht := hts t List.mem_cons_self
    rw [List.mapM_cons, ih fun t' h' => hts t' (List.mem_cons_of_mem t h'), hr _ ht.1 ht.2]
    rfl

/-! ## The table at the outset -/

/-- A table just built from the edges of a network spans the network. -/
theorem spans_of_pairs_eq (hN : N.WellFormed) {t : ArcTable}
    (hpairs : t.pairs = N.edges.map ArcPair.ofEdge)
    (haround : ∀ u, u < N.numNodes → t.around u = .ok (ArcTable.arcsFrom u 0 N.edges.toList)) :
    t.Spans N := by
  have hpair : ∀ (k : Nat) (e : Edge), N.edges[k]? = some e →
      t.pairs[k]? = some (ArcPair.ofEdge e) := by
    intro k e he
    simp [hpairs, he]
  have hcapacity : ∀ (k : Nat) (d : Direction) (e : Edge), N.edges[k]? = some e →
      t.capacity ⟨k, d⟩ = (ArcPair.ofEdge e).residual d :=
    fun k d e he => ArcTable.capacity_of_getElem? (hpair k e he)
  refine ⟨by simp [hpairs], fun k e he => ⟨_, hpair k e he, rfl, rfl⟩, haround, ?_, ?_, ?_⟩
  · rintro ⟨k, d⟩
    cases he : N.edges[k]? with
    | none => simp [ArcTable.capacity, hpairs, he]
    | some e =>
      rw [hcapacity k d e he]
      cases d with
      | forward => exact hN.capacity_nonneg e (Array.mem_of_getElem? he)
      | reverse => exact hN.reverseCapacity_nonneg e (Array.mem_of_getElem? he)
  · intro k e he
    rw [hcapacity k _ e he, hcapacity k _ e he]
    rfl
  · intro k e he _
    exact hcapacity k _ e he

/-- Nothing flows along the edges of a table just built. -/
theorem along_of_pairs_eq {t : ArcTable} (hpairs : t.pairs = N.edges.map ArcPair.ofEdge) (k : Nat) :
    t.along N k = 0 := by
  cases he : N.edges[k]? with
  | none => simp only [ArcTable.along, he]
  | some e =>
    rw [ArcTable.along_of_getElem? he, ArcTable.capacity_of_getElem? (p := ArcPair.ofEdge e)
      (by simp [hpairs, he])]
    exact Int.sub_self _

/-! ## The outset of a network -/

/-- What is left of `N`, with the table `t`, once the smaller weight of every node has gone
from the source through the node into the sink. -/
def outset (N : Network) (t : ArcTable) : Residual where
  arcs := t
  excess := (N.terminals.toList.map fun t => t.source - t.sink).toArray
  flow := N.nodeSum fun _ t => min t.source t.sink

theorem excessAt_outset {t : ArcTable} {v : Nat} {w : TerminalWeights}
    (h : N.terminals[v]? = some w) : (outset N t).excessAt v = w.source - w.sink := by
  simp [excessAt, outset, h]

/-- The outset is balanced: each node passes on the smaller one of its weights. -/
theorem outset_balances (hN : N.WellFormed) {t : ArcTable}
    (hpairs : t.pairs = N.edges.map ArcPair.ofEdge)
    (haround : ∀ u, u < N.numNodes → t.around u = .ok (ArcTable.arcsFrom u 0 N.edges.toList)) :
    (outset N t).Balances N where
  arcs := spans_of_pairs_eq hN hpairs haround
  size_eq := by simp [outset, Network.numNodes]
  between v w hw := by
    rw [excessAt_outset hw]
    omega
  gap_eq v hv := by
    have hw : N.terminals[v]? = some N.terminals[v] := Array.getElem?_eq_getElem hv
    have hnet : N.netOutflow (t.along N) v = 0 := by
      rw [Network.netOutflow, Network.edgeSum_congr (g := fun _ _ => 0)]
      · simp [Network.edgeSum_eq]
      · intro k e _
        simp [along_of_pairs_eq hpairs]
    show _ - _ - N.netOutflow (t.along N) v = 0
    simp only [flowOf, hw, Option.getD_some, excessAt_outset hw, hnet]
    omega
  source_total := by
    show (N.nodeSum fun _ t => min t.source t.sink) + _ = _
    rw [supply, Network.nodeSum_add]
    apply Network.nodeSum_congr
    intro v w hw
    rw [excessAt_outset hw]
    omega
  sink_total := by
    show (N.nodeSum fun _ t => min t.source t.sink) + _ = _
    rw [demand, Network.nodeSum_add]
    apply Network.nodeSum_congr
    intro v w hw
    rw [excessAt_outset hw]
    omega

/-- The residual network that is set up is the outset, in every register with room. -/
theorem ofNetwork_eq (hN : N.WellFormed) (hm : N.Fits m) (hr : r.Keeps m) {t : ArcTable}
    (hbuild : ArcTable.build N.numNodes N.edges = .ok t) :
    ofNetwork r N = .ok (outset N t) := by
  have hmin : ∀ t ∈ N.terminals.toList, 0 ≤ min t.source t.sink := by
    intro t ht
    have hs := hN.source_nonneg t (by simpa using ht)
    have hk := hN.sink_nonneg t (by simpa using ht)
    omega
  have hdiff : ∀ t ∈ N.terminals.toList, -m ≤ t.source - t.sink ∧ t.source - t.sink ≤ m := by
    intro t ht
    have ht' : t ∈ N.terminals := by simpa using ht
    have hs := hN.source_nonneg t ht'
    have hk := hN.sink_nonneg t ht'
    have hs' := hm.source_le t ht'
    have hk' := hm.sink_le t ht'
    omega
  -- only one of the totals need fit: the smaller weights are bounded by either
  have hflow : (N.nodeSum fun _ t => min t.source t.sink) ≤ m := by
    obtain ⟨h₁, h₂⟩ := N.sum_min_le
    have ht := hm.total_le
    omega
  have hsum := initialFlow_eq hr hmin (by rwa [← N.nodeSum_eq_sum_map])
  simp only [ofNetwork, hbuild, hsum, excesses_eq hr hdiff, bind, Except.bind, pure, Except.pure]
  rw [← N.nodeSum_eq_sum_map]
  rfl

/-- **The residual network at the outset** exists, does not depend on the register, and
balances the network; its flow is the sum of the smaller weights. -/
theorem ofNetwork_spec (hN : N.WellFormed) (hm : N.Fits m) :
    ∃ R, (∀ r : Register, r.Keeps m → ofNetwork r N = .ok R) ∧ R.Balances N ∧
      R.flow = N.nodeSum fun _ t => min t.source t.sink := by
  have hplaced : ∀ e ∈ N.edges, ArcTable.Placed N.numNodes e :=
    fun e he _ => ⟨hN.tail_lt e he, hN.head_lt e he⟩
  obtain ⟨t, hbuild, hpairs, haround⟩ := ArcTable.build_spec hplaced
  exact ⟨outset N t, fun r hr => ofNetwork_eq hN hm hr hbuild, outset_balances hN hpairs haround,
    rfl⟩

end Residual

end MinCut
