/-
# Writing the flow into the edges

A solved graph keeps the net flow of every edge with the edge.  It is what the forward arc of
the edge has lost, so writing it down needs no more room than the capacities do, and it
changes nothing that a search reads: a network is searched as if all its edges were idle.

Key facts:
* `cutCapacity_bare` and `isFeasible_bare_iff` : recorded flows do not matter for cuts and
  flows;
* `flowsOn_spec` : what is written into the edges.
-/
import MinCut.Network.Cut
import MinCut.Proofs.Outset

namespace MinCut

/-! ## Networks without recorded flows -/

/-- The edge with no flow recorded. -/
def Edge.bare (e : Edge) : Edge := .idle e.tail e.head e.capacity e.reverseCapacity

/-- The edge with the flow `x` recorded. -/
def Edge.record (x : Int) (e : Edge) : Edge := { e with flow := x }

namespace Network

variable {N : Network} {F : FlowAssignment} {m : Int}

/-- The network with no flow recorded. -/
def bare (N : Network) : Network := { N with edges := N.edges.map Edge.bare }

@[simp] theorem numNodes_bare (N : Network) : N.bare.numNodes = N.numNodes := rfl

theorem getElem?_bare (N : Network) (k : Nat) : N.bare.edges[k]? = N.edges[k]?.map Edge.bare := by
  simp [bare]

theorem edgeSum_bare (N : Network) (f : Nat → Edge → Int) :
    N.bare.edgeSum f = N.edgeSum fun k e => f k e.bare := by
  rw [edgeSum, bare, Array.toList_map, List.zipIdx_map, List.foldr_map]
  rfl

/-- Recorded flows do not matter for cuts. -/
theorem cutCapacity_bare (N : Network) (side : Nat → Segment) :
    N.bare.cutCapacity side = N.cutCapacity side := by
  unfold cutCapacity
  rw [edgeSum_bare]
  rfl

/-- Recorded flows do not matter for flows. -/
theorem netOutflow_bare (N : Network) (along : Nat → Int) (v : Nat) :
    N.bare.netOutflow along v = N.netOutflow along v := by
  unfold netOutflow
  rw [edgeSum_bare]
  rfl

theorem isFeasible_bare_iff : N.bare.IsFeasible F ↔ N.IsFeasible F := by
  constructor
  · intro h
    refine ⟨?_, ?_, h.fromSource_nonneg, h.fromSource_le, h.intoSink_nonneg, h.intoSink_le, ?_⟩
    · intro k e he
      exact h.neg_reverseCapacity_le k e.bare (by rw [getElem?_bare, he]; rfl)
    · intro k e he
      exact h.le_capacity k e.bare (by rw [getElem?_bare, he]; rfl)
    · intro v hv
      rw [← netOutflow_bare]
      exact h.conserved v hv
  · intro h
    refine ⟨?_, ?_, h.fromSource_nonneg, h.fromSource_le, h.intoSink_nonneg, h.intoSink_le, ?_⟩
    · intro k e he
      rw [getElem?_bare] at he
      obtain ⟨e', he', rfl⟩ := Option.map_eq_some_iff.1 he
      exact h.neg_reverseCapacity_le k e' he'
    · intro k e he
      rw [getElem?_bare] at he
      obtain ⟨e', he', rfl⟩ := Option.map_eq_some_iff.1 he
      exact h.le_capacity k e' he'
    · intro v hv
      rw [netOutflow_bare]
      exact h.conserved v hv

/-- A cut is a minimum cut whatever flows are recorded. -/
theorem isMinimumCut_bare_iff {side : Nat → Segment} :
    N.bare.IsMinimumCut side ↔ N.IsMinimumCut side := by
  unfold IsMinimumCut
  simp only [cutCapacity_bare]

end Network

/-! ## Recording -/

namespace ArcTable

variable {t : ArcTable} {N : Network} {m : Int} {r : Register}

/-- Recorded flows do not matter for what the forward arcs have lost. -/
theorem along_bare (t : ArcTable) (N : Network) : t.along N.bare = t.along N := by
  funext k
  unfold along
  rw [Network.getElem?_bare]
  cases N.edges[k]? <;> rfl

/-- Writing what the forward arcs have lost, where the register has the room. -/
theorem withFlows_eq (hr : r.Keeps m) {es : List Edge} {ps : List ArcPair}
    (hlen : es.length = ps.length)
    (h : ∀ (k : Nat) (e : Edge) (p : ArcPair), es[k]? = some e → ps[k]? = some p →
      -m ≤ e.capacity - p.forward ∧ e.capacity - p.forward ≤ m) :
    withFlows r es ps =
      .ok (List.zipWith (fun e p => e.record (e.capacity - p.forward)) es ps) := by
  induction es generalizing ps with
  | nil =>
    cases ps with
    | nil => rfl
    | cons p ps => cases hlen
  | cons e es ih =>
    cases ps with
    | nil => cases hlen
    | cons p ps =>
      obtain ⟨hlo, hhi⟩ := h 0 e p rfl rfl
      have hlen' : es.length = ps.length := by simpa using hlen
      have hrest := ih hlen' fun k e' p' he' hp' =>
        h (k + 1) e' p' (by simpa using he') (by simpa using hp')
      unfold withFlows
      simp only [hr _ hlo hhi, hrest, bind, Except.bind, pure, Except.pure]
      rfl

/-- **What is written into the edges** of a network is the net flow that the table has taken
up, and nothing else changes. -/
theorem flowsOn_spec (hN : N.bare.WellFormed) (hm : N.bare.Fits m) (ht : t.Spans N.bare) :
    ∃ es : Array Edge, (∀ r : Register, r.Keeps m → t.flowsOn r N.edges = .ok es) ∧
      (∀ k : Nat, es[k]? = N.edges[k]?.map (Edge.record (t.along N.bare k))) ∧
      es.map Edge.bare = N.edges.map Edge.bare := by
  have hsize : t.pairs.size = N.edges.size := by
    rw [ht.size_eq]
    simp [Network.bare]
  have hbare : ∀ {k : Nat} {e : Edge}, N.edges[k]? = some e → N.bare.edges[k]? = some e.bare :=
    fun he => by rw [Network.getElem?_bare, he]; rfl
  -- a forward arc has lost no more than its capacity and gained no more than its sister had
  have hroom : ∀ (k : Nat) (e : Edge) (p : ArcPair), N.edges.toList[k]? = some e →
      t.pairs.toList[k]? = some p → e.capacity - p.forward = t.along N.bare k ∧
        -m ≤ e.capacity - p.forward ∧ e.capacity - p.forward ≤ m := by
    intro k e p he hp
    rw [Array.getElem?_toList] at he hp
    have hfit := hm.pair_le _ (Array.mem_of_getElem? (hbare he))
    have hcap := hN.capacity_nonneg _ (Array.mem_of_getElem? (hbare he))
    have hrev := hN.reverseCapacity_nonneg _ (Array.mem_of_getElem? (hbare he))
    have hsum := ht.sum_eq k _ (hbare he)
    have hforward := ht.nonneg ⟨k, .forward⟩
    have hreverse := ht.nonneg ⟨k, .reverse⟩
    have halong := along_of_getElem? (t := t) (hbare he)
    rw [capacity_of_getElem? (d := .forward) hp] at hsum hforward halong
    simp only [ArcPair.residual, Edge.bare, Edge.idle] at *
    omega
  have hget : ∀ k : Nat, (List.zipWith (fun e p => e.record (e.capacity - p.forward))
      N.edges.toList t.pairs.toList).toArray[k]? =
        N.edges[k]?.map (Edge.record (t.along N.bare k)) := by
    intro k
    rw [List.getElem?_toArray, List.getElem?_zipWith]
    cases he : N.edges[k]? with
    | none => simp [he]
    | some e =>
      have hlt : k < t.pairs.size := by
        rw [hsize]
        exact (Array.getElem?_eq_some_iff.1 he).1
      have hp : t.pairs[k]? = some t.pairs[k] := Array.getElem?_eq_getElem hlt
      obtain ⟨heq, -, -⟩ := hroom k e t.pairs[k] (by rw [Array.getElem?_toList, he])
        (by rw [Array.getElem?_toList, hp])
      simp [he, hp, heq]
  refine ⟨_, ?_, hget, ?_⟩
  · intro r hr
    have hlen : N.edges.toList.length = t.pairs.toList.length := by simp [hsize]
    have hflows := withFlows_eq hr hlen fun k e p he hp => (hroom k e p he hp).2
    simp only [flowsOn, hflows, bind, Except.bind, pure, Except.pure]
  · apply Array.ext_getElem?
    intro k
    rw [Array.getElem?_map, Array.getElem?_map, hget]
    cases N.edges[k]? <;> rfl

end ArcTable

end MinCut
