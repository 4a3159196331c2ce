/-
# The cut that a search ends with

A cut is used up by the flow exactly if nothing can be sent across it: it keeps every node
with an excess on the side of its terminal, and no arc with residual capacity leads out of its
source side.  The source tree of a complete search is such a cut, so its capacity is the value
of the flow, which is then as large as any flow and as small as any cut.

A minimum cut is used up too, so it cannot lose a node of the source tree: its source side
holds the roots and, going down tree edge by tree edge, all nodes below them.

Key facts:
* `unused_eq_zero_iff_closed` : the cuts that a flow uses up;
* `Complete.closed` : the source tree of a complete search is used up;
* `Complete.induction_on_tree` : what passes from the roots of a tree down along its edges holds
  of all its nodes, by induction on the way up;
* `Complete.side_of_segment` : the source tree lies in the source side of every minimum cut.
-/
import MinCut.Proofs.Turns

namespace MinCut

namespace Residual

variable {R : Residual} {N : Network} {side : Nat → Segment}

/-! ## Cuts that a flow uses up -/

/-- Nothing can be sent across the cut. -/
structure Closed (R : Residual) (N : Network) (side : Nat → Segment) : Prop where
  source : ∀ v, v < N.numNodes → 0 < R.excessAt v → side v = .source
  sink : ∀ v, v < N.numNodes → R.excessAt v < 0 → side v = .sink
  arcs : ∀ a u v, R.arcs.Leads a u v → 0 < R.arcs.capacity a → side u = .source → side v = .source

/-- What an edge leaves unused of a cut is the residual capacity of the arc that leads across
it from the source side. -/
theorem edge_unused_eq (hR : R.Within N) {k : Nat} {e : Edge} (he : N.edges[k]? = some e) :
    e.unused side (R.arcs.along N k) =
      match side e.tail, side e.head with
      | .source, .sink => R.arcs.capacity ⟨k, .forward⟩
      | .sink, .source => R.arcs.capacity ⟨k, .reverse⟩
      | .source, .source => 0
      | .sink, .sink => 0 := by
  have hsum := hR.arcs.sum_eq k e he
  unfold Edge.unused
  rw [ArcTable.along_of_getElem? he]
  cases side e.tail <;> cases side e.head <;> simp only <;> omega

/-- What a node leaves unused of a cut is its excess towards the other side. -/
theorem terminal_unused_eq {v : Nat} {t : TerminalWeights} (ht : N.terminals[v]? = some t) :
    t.unused (side v) ((R.flowOf N).fromSource v) ((R.flowOf N).intoSink v) =
      match side v with
      | .source => max (-R.excessAt v) 0
      | .sink => max (R.excessAt v) 0 := by
  simp only [TerminalWeights.unused, flowOf, ht, Option.getD_some]
  cases side v <;> simp only <;> omega

/-- Nothing can be sent across a cut that is used up. -/
theorem closed_of_unused_eq_zero (hR : R.Balances N)
    (hedges : ∀ (k : Nat) (e : Edge), N.edges[k]? = some e →
      e.unused side (R.arcs.along N k) = 0)
    (hnodes : ∀ (v : Nat) (t : TerminalWeights), N.terminals[v]? = some t →
      t.unused (side v) ((R.flowOf N).fromSource v) ((R.flowOf N).intoSink v) = 0) :
    R.Closed N side := by
  refine ⟨?_, ?_, ?_⟩
  · intro v hv hx
    have hz := hnodes v _ (Array.getElem?_eq_getElem hv)
    rw [terminal_unused_eq (Array.getElem?_eq_getElem hv)] at hz
    cases hs : side v with
    | source => rfl
    | sink =>
      rw [hs] at hz
      simp only at hz
      omega
  · intro v hv hx
    have hz := hnodes v _ (Array.getElem?_eq_getElem hv)
    rw [terminal_unused_eq (Array.getElem?_eq_getElem hv)] at hz
    cases hs : side v with
    | sink => rfl
    | source =>
      rw [hs] at hz
      simp only at hz
      omega
  · intro a u v ha hc hu
    obtain ⟨e, he, h⟩ := hR.arcs.exists_edge ha
    have hz := hedges a.pair e he
    rw [edge_unused_eq hR.toWithin he] at hz
    obtain ⟨k, d⟩ := a
    cases hs : side v with
    | source => rfl
    | sink =>
      -- the edge of the arc would be left unused, in the direction of the arc
      rcases h with ⟨rfl, rfl, rfl⟩ | ⟨rfl, rfl, rfl⟩
      · rw [hu, hs] at hz
        simp only at hz
        omega
      · rw [hu, hs] at hz
        simp only at hz
        omega

/-- An edge is used up by a cut across which nothing can be sent. -/
theorem Closed.edge_unused (h : R.Closed N side) (hR : R.Balances N) {k : Nat} {e : Edge}
    (he : N.edges[k]? = some e) : e.unused side (R.arcs.along N k) = 0 := by
  have hforward := hR.arcs.nonneg ⟨k, .forward⟩
  have hreverse := hR.arcs.nonneg ⟨k, .reverse⟩
  have hlead := hR.arcs.leads k e he
  have hacross := h.arcs ⟨k, .forward⟩ e.tail e.head hlead
  have hback := h.arcs ⟨k, .reverse⟩ e.head e.tail hlead.sister
  rw [edge_unused_eq hR.toWithin he]
  cases ht : side e.tail <;> cases hh : side e.head <;> simp only
  · by_contra hne
    have hs := hacross (by omega) ht
    rw [hh] at hs
    cases hs
  · by_contra hne
    have hs := hback (by omega) hh
    rw [ht] at hs
    cases hs

/-- The terminal weights of a node are used up by a cut across which nothing can be sent. -/
theorem Closed.terminal_unused (h : R.Closed N side) {v : Nat} {t : TerminalWeights}
    (ht : N.terminals[v]? = some t) :
    t.unused (side v) ((R.flowOf N).fromSource v) ((R.flowOf N).intoSink v) = 0 := by
  have hv : v < N.numNodes := (Array.getElem?_eq_some_iff.1 ht).1
  have hsource := h.source v hv
  have hsink := h.sink v hv
  rw [terminal_unused_eq ht]
  cases hs : side v <;> rw [hs] at hsource hsink <;> simp only [reduceCtorEq, imp_false] at *
  · omega
  · omega

/-- **A flow uses up a cut** exactly if nothing can be sent across it. -/
theorem unused_eq_zero_iff_closed (hN : N.WellFormed) (hR : R.Balances N) :
    N.unused (R.flowOf N) side = 0 ↔ R.Closed N side := by
  rw [Network.unused_eq_zero_iff (hR.isFeasible hN)]
  constructor
  · rintro ⟨hedges, hnodes⟩
    exact closed_of_unused_eq_zero hR hedges hnodes
  · intro h
    exact ⟨fun k e he => h.edge_unused hR he, fun v t ht => h.terminal_unused ht⟩

end Residual

namespace Search

variable {N : Network} {s : Search} {side : Nat → Segment} {u v : Nat} {l : Label}

/-! ## The source tree -/

/-- A node lies on the source side if it is in the source tree. -/
theorem Complete.segment_eq_source_iff (h : s.Complete N) :
    s.segment v = .source ↔ ∃ l, s.forest.label v = some l ∧ l.side = .source := by
  unfold segment Forest.label
  rcases hv : s.forest.labels[v]? with _ | _ | l
  · simp
  · simp
  · have hp := h.settled v l (by simp [Forest.label, hv])
    rw [← Label.isAttached_iff] at hp
    simp [hp]

/-- **Nothing can be sent across the cut of a complete search.** -/
theorem Complete.closed (h : s.Complete N) : s.residual.Closed N s.segment where
  source v _ hx := by
    obtain ⟨l, hl, hp⟩ := h.sound.root_of_excess v (by omega)
    rcases h.sound.bound v l hl hp with ⟨hs, -⟩ | ⟨-, hx'⟩
    · exact h.segment_eq_source_iff.2 ⟨l, hl, hs⟩
    · omega
  sink v _ hx := by
    obtain ⟨l, hl, hp⟩ := h.sound.root_of_excess v (by omega)
    rcases h.sound.bound v l hl hp with ⟨-, hx'⟩ | ⟨hs, -⟩
    · omega
    · cases hv : s.segment v with
      | sink => rfl
      | source =>
        obtain ⟨k, hk, hks⟩ := h.segment_eq_source_iff.1 hv
        rw [hl] at hk
        cases hk
        rw [hs] at hks
        cases hks
  arcs a u v ha hc hu := by
    obtain ⟨l, hl, hs⟩ := h.segment_eq_source_iff.1 hu
    -- no node waits to grow, so an arc with capacity left leads to a node of the same tree
    obtain ⟨m, hm, hms⟩ := h.exhausted u l a v hl ha (by
      rw [hs]
      show 0 < s.residual.arcs.capacity a.sister.sister
      rw [ArcRef.sister_sister]
      exact hc)
    exact h.segment_eq_source_iff.2 ⟨m, hm, hms.trans hs⟩

/-- The cut of a complete search has the value of its flow. -/
theorem Complete.flow_eq_cutCapacity (h : s.Complete N) (hN : N.WellFormed) :
    s.residual.flow = N.cutCapacity s.segment := by
  rw [Network.cutCapacity_of_unused_eq_zero hN (h.balances.isFeasible hN)
    ((Residual.unused_eq_zero_iff_closed hN h.balances).2 h.closed), h.balances.flowValue_eq]

/-- **Induction on a tree**: what holds of the roots of a tree, and of a node if it holds of the
parent on which the node hangs by an arc with residual capacity, holds of all nodes of the tree. -/
theorem Complete.induction_on_tree {P : Nat → Prop} {t : Segment} (h : s.Complete N)
    (hroot : ∀ v, v < N.numNodes → 0 < t.directed (s.residual.excessAt v) → P v)
    (hhung : ∀ a u v, s.residual.arcs.Leads a u v → u ≠ v →
      0 < s.residual.arcs.capacity (treeArc t a) → P v → P u)
    (hu : s.forest.label u = some l) (hl : l.side = t) : P u := by
  obtain ⟨p, hp⟩ := Forest.exists_climbs h.sound h.ordered hu
  induction hp generalizing l with
  | top hu' hnot =>
    rename_i u k
    obtain rfl : l = k := Option.some.inj (hu.symm.trans hu')
    have hp : l.parent = .root := by
      cases hlp : l.parent with
      | root => rfl
      | orphan => exact absurd hlp (h.settled u l hu)
      | via a => exact absurd hlp (hnot a)
    apply hroot u (h.sound.lt_numNodes h.balances.toWithin hu)
    rcases h.sound.bound u l hu hp with ⟨hs, hx⟩ | ⟨hs, hx⟩ <;> rw [← hl, hs] <;>
      simp only [Segment.directed] <;> omega
  | step hu' hp ha hup ih =>
    rename_i u w k a q
    obtain rfl : l = k := Option.some.inj (hu.symm.trans hu')
    obtain ⟨v, m, hv, hm, hside, hcap⟩ := h.sound.hung u l a hu hp
    obtain ⟨-, rfl⟩ := ha.unique hv
    rw [hl] at hside hcap
    exact hhung a u w ha (h.ordered.ne_of_leads hu hp ha) hcap (ih hm hside)

/-- **The source tree of a complete search lies in the source side of every minimum cut.** -/
theorem Complete.side_of_segment (h : s.Complete N) (hN : N.WellFormed)
    (hmin : N.IsMinimumCut side) (hv : s.segment v = .source) : side v = .source := by
  -- the flow uses up its own cut, hence any minimum cut, hence nothing leaves that one either
  have hzero := (Residual.unused_eq_zero_iff_closed hN h.balances).2 h.closed
  have hunused := Network.unused_eq_zero_of_isMinimumCut hN (h.balances.isFeasible hN) hzero hmin
  have hclosed := (Residual.unused_eq_zero_iff_closed hN h.balances).1 hunused
  obtain ⟨l, hl, hs⟩ := h.segment_eq_source_iff.1 hv
  -- the roots lie there, and with a parent the nodes that hang on it
  exact h.induction_on_tree (P := fun v => side v = .source) (t := .source) hclosed.source
    (fun a u v ha _ hc hp => hclosed.arcs _ _ _ ha.sister hc hp) hl hs

end Search

end MinCut
