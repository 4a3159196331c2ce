/-
# Loops are invisible to a search

The arcs of a loop are around no node, so a table with more loops lists around every node the same
arcs as before, only that the edges have other numbers.  A search does not see these numbers.  So
it augments the same paths, settles as many orphans, and ends with the same flow, the same cut and
the same residual capacities; the loops themselves carry nothing.

Key facts:
* `InsertsLoops.arcsFrom_eq` : the arcs around a node, by induction on the loops inserted;
* `ArcTable.renames_of_build` : the tables of the two networks;
* `solve_of_insertsLoops` : what the two graphs report.
-/
import MinCut.Network.Loops
import MinCut.Proofs.EventLog
import MinCut.Proofs.RenamedRuns

namespace MinCut

namespace ArcTable

variable {ρ : Nat → Nat} {t t' : ArcTable} {n : Nat} {edges edges' : Array Edge}

/-! ## Arcs under other numbers -/

theorem arcsFrom_append (u k : Nat) (es fs : List Edge) :
    arcsFrom u k (es ++ fs) = arcsFrom u k es ++ arcsFrom u (k + es.length) fs := by
  induction es generalizing k with
  | nil => rfl
  | cons e es ih =>
    rw [List.cons_append, arcsFrom, arcsFrom, ih, List.append_assoc, List.length_cons,
      show k + 1 + es.length = k + (es.length + 1) by omega]

/-- The same edges, numbered otherwise. -/
theorem arcsFrom_rename {u k k' : Nat} {es : List Edge}
    (h : ∀ j, j < es.length → ρ (k + j) = k' + j) :
    arcsFrom u k' es = (arcsFrom u k es).map (ArcRef.rename ρ) := by
  induction es generalizing k k' with
  | nil => rfl
  | cons e es ih =>
    have hhead : arcsAt u k' e = (arcsAt u k e).map (ArcRef.rename ρ) := by
      have hk : ρ k = k' := h 0 (by simp)
      unfold arcsAt
      split
      · rfl
      · split <;> split <;> simp [ArcRef.rename, hk]
    have hrest : ∀ j, j < es.length → ρ (k + 1 + j) = k' + 1 + j := by
      intro j hj
      rw [show k + 1 + j = k + (j + 1) by omega, h (j + 1) (by simpa using hj)]
      omega
    rw [arcsFrom, arcsFrom, List.map_append, hhead, ih hrest]

/-! ## The tables -/

/-- The arcs that a table just built lists around a node. -/
theorem around_of_build (hedges : ∀ e ∈ edges, Placed n e) (h : build n edges = .ok t) {u : Nat}
    {as : List ArcRef} (has : t.around u = .ok as) : as = arcsFrom u 0 edges.toList := by
  obtain ⟨t', ht', -, haround⟩ := build_spec hedges
  obtain rfl : t = t' := Except.ok.inj (h.symm.trans ht')
  have hu := lt_numNodes_of_around has
  rw [numNodes_of_build h] at hu
  exact Except.ok.inj (has.symm.trans (haround u hu))

/-- **The tables of two lists of edges** are the same up to the numbers of the edges if the lists
are, apart from edges that have no arcs around any node. -/
theorem renames_of_build (hρ : Function.Injective ρ) (hedges : ∀ e ∈ edges, Placed n e)
    (hedges' : ∀ e ∈ edges', Placed n e) (hget : ∀ k : Nat, edges'[ρ k]? = edges[k]?)
    (harcs : ∀ u, arcsFrom u 0 edges'.toList =
      (arcsFrom u 0 edges.toList).map (ArcRef.rename ρ)) :
    Paired (Renames ρ) (build n edges) (build n edges') := by
  intro t t' ht ht'
  refine ⟨hρ, ?_, ?_⟩
  · intro u as as' has has'
    rw [around_of_build hedges ht has, around_of_build hedges' ht' has', harcs]
  · have hpairs : ∀ {es : Array Edge} {t : ArcTable}, build n es = .ok t →
        t.pairs = es.map ArcPair.ofEdge := by
      intro es t h
      obtain ⟨rows, -, ht⟩ := bind_eq_ok_iff.1 h
      obtain rfl := Except.ok.inj ht
      rfl
    intro k
    rw [hpairs ht, hpairs ht', Array.getElem?_map, Array.getElem?_map, hget]

end ArcTable

/-! ## Networks with more loops -/

namespace Network

variable {ρ : Nat → Nat} {N M : Network}

theorem raise_injective (i : Nat) : Function.Injective (raise i) := by
  intro j k h
  unfold raise at h
  split at h <;> split at h <;> omega

/-- Every number but that of the inserted edge is the number of an edge that was there. -/
theorem eq_or_exists_raise (i k : Nat) : k = i ∨ ∃ j, raise i j = k := by
  rcases Nat.lt_trichotomy k i with h | h | h
  · exact Or.inr ⟨k, if_pos h⟩
  · exact Or.inl h
  · refine Or.inr ⟨k - 1, ?_⟩
    unfold raise
    split <;> omega

theorem getElem?_raise (es fs : List Edge) (e : Edge) (k : Nat) :
    (es ++ e :: fs)[raise es.length k]? = (es ++ fs)[k]? := by
  unfold raise
  by_cases h : k < es.length
  · rw [if_pos h, List.getElem?_append_left h, List.getElem?_append_left h]
  · rw [if_neg h, List.getElem?_append_right (by omega), List.getElem?_append_right (by omega),
      show k + 1 - es.length = (k - es.length) + 1 by omega, List.getElem?_cons_succ]

theorem InsertsLoops.terminals_eq (h : InsertsLoops ρ N M) : M.terminals = N.terminals := by
  induction h with
  | refl => rfl
  | insert es fs ts _ _ ih => exact ih

theorem InsertsLoops.injective (h : InsertsLoops ρ N M) : Function.Injective ρ := by
  induction h with
  | refl => exact Function.injective_id
  | insert es fs ts _ _ ih => exact (raise_injective es.length).comp ih

/-- The edges that were there are found under their new numbers. -/
theorem InsertsLoops.getElem?_edges (h : InsertsLoops ρ N M) (k : Nat) :
    M.edges[ρ k]? = N.edges[k]? := by
  induction h with
  | refl => rfl
  | insert es fs ts _ _ ih =>
    rw [← ih]
    simp only [ofEdges, Function.comp_apply, List.getElem?_toArray]
    exact getElem?_raise es fs _ _

/-- All other edges are loops. -/
theorem InsertsLoops.isLoop (h : InsertsLoops ρ N M) {k : Nat} {e : Edge}
    (he : M.edges[k]? = some e) (hk : ∀ j, ρ j ≠ k) : e.isLoop = true := by
  induction h generalizing k e with
  | refl => exact absurd rfl (hk k)
  | insert es fs ts _ hloop ih =>
    simp only [ofEdges, List.getElem?_toArray] at he ih
    rcases eq_or_exists_raise es.length k with rfl | ⟨j, rfl⟩
    · rw [List.getElem?_append_right (Nat.le_refl _), Nat.sub_self] at he
      obtain rfl := Option.some.inj he
      exact hloop
    · rw [getElem?_raise] at he
      exact ih he fun i hi => hk i (congrArg (raise es.length) hi)

/-- **Around every node** there are the same arcs, under their new numbers. -/
theorem InsertsLoops.arcsFrom_eq (h : InsertsLoops ρ N M) (u : Nat) :
    ArcTable.arcsFrom u 0 M.edges.toList =
      (ArcTable.arcsFrom u 0 N.edges.toList).map (ArcRef.rename ρ) := by
  induction h with
  | refl => exact (List.map_id _).symm
  | @insert ρ N es fs e ts _ hloop ih =>
    have hcomp : ArcRef.rename (raise es.length ∘ ρ) =
        ArcRef.rename (raise es.length) ∘ ArcRef.rename ρ := rfl
    rw [hcomp, ← List.map_map, ← ih]
    simp only [ofEdges, ArcTable.arcsFrom_append, Nat.zero_add, ArcTable.arcsFrom,
      ArcTable.arcsAt, hloop, if_true, List.nil_append, List.map_append]
    congr 1
    · apply ArcTable.arcsFrom_rename
      intro j hj
      rw [Nat.zero_add, raise, if_pos hj]
    · apply ArcTable.arcsFrom_rename
      intro j _
      rw [raise, if_neg (by omega)]
      omega

end Network

/-! ## The searches -/

namespace Search

variable {ρ : Nat → Nat} {N M : Network}

theorem renames_ofNetwork (h : Network.InsertsLoops ρ N M) (hN : N.WellFormed) (hM : M.WellFormed)
    (r : Register) (reparent : Bool) :
    Paired (Renames ρ) (ofNetwork r N reparent) (ofNetwork r M reparent) := by
  have hnodes : M.numNodes = N.numNodes := by
    unfold Network.numNodes
    rw [h.terminals_eq]
  have hunsearched : (Forest.unsearched N.numNodes).rename ρ = .unsearched N.numNodes := by
    simp [Forest.unsearched, Forest.rename]
  have htables : Paired (ArcTable.Renames ρ) (ArcTable.build N.numNodes N.edges)
      (ArcTable.build N.numNodes M.edges) :=
    ArcTable.renames_of_build h.injective (fun e he _ => ⟨hN.tail_lt e he, hN.head_lt e he⟩)
      (fun e he _ => hnodes ▸ ⟨hM.tail_lt e he, hM.head_lt e he⟩) h.getElem?_edges h.arcsFrom_eq
  unfold ofNetwork Residual.ofNetwork
  rw [hnodes, h.terminals_eq]
  simp only [bind_assoc]
  refine htables.bind ?_
  intro t t' ht
  refine (Paired.refl _).bind ?_
  rintro flow _ rfl
  refine (Paired.refl _).bind ?_
  rintro excess _ rfl
  exact .ok ⟨ht, rfl, rfl, hunsearched.symm, rfl, rfl, rfl⟩

/-- The two searches have found the same cut. -/
theorem Renames.segment_eq {s s' : Search} (h : s.Renames ρ s') (v : Nat) :
    s'.segment v = s.segment v := by
  unfold segment
  rw [h.forest_eq, Forest.rename, Array.getElem?_map]
  cases s.forest.labels[v]? with
  | none => rfl
  | some l =>
    cases l with
    | none => rfl
    | some l => simp only [Option.map_some, Label.isAttached_rename, Label.side_rename]

end Search

/-! ## What is reported -/

namespace Graph

variable {r : Register} {bits : Nat} {g g' : Graph r} {ρ : Nat → Nat} {x x' : Solved r}

/-- **The two solved graphs report the same**, where the edge `k` of the first has the number `ρ k`
in the second, and nothing flows along any further edge of the second. -/
structure SameUpToLoops (ρ : Nat → Nat) (x x' : Solved r) : Prop where
  flow_eq : x'.flow = x.flow
  segment_eq : ∀ v, x'.graph.segment? v = x.graph.segment? v
  terminalResidual_eq : ∀ v, x'.graph.terminalResidual? v = x.graph.terminalResidual? v
  edge_eq : ∀ k, x'.graph.edge? (ρ k) = x.graph.edge? k
  flow_eq_zero : ∀ k e, x'.graph.edge? k = some e → (∀ j, ρ j ≠ k) → e.flow = 0
  /-- After the numbers of nodes and edges, all that is told is the same: every augmentation, and
  the counters at the end. -/
  events_eq : ∃ told, x.events = .solving x.graph.numNodes x.graph.numEdges :: told ∧
    x'.events = .solving x'.graph.numNodes x'.graph.numEdges :: told

/-- A solve that begins a new search, with all that it comes to. -/
theorem exists_solve_of_check (hr : r.IsMachine bits) (hg : g.Built) (hs : g.search = none)
    (hcheck : checkOverflow r g.network = .ok ()) :
    ∃ s₀ s as es, Solves g.network (Register.limit bits) s₀ s as es ∧
      Search.ofNetwork r g.network g.config.reparent = .ok s₀ ∧
      g.solve = .ok (g.solvedWith s₀ s as es) := by
  have hv := hg.valid hr
  obtain ⟨s₀, s, as, es, hsolves, hok⟩ := exists_solves hv (hv.fits_of_check hr fun _ => hcheck)
  obtain ⟨hcurrent, hsolve⟩ :=
    hok r hr.keeps fun x => Register.fits_of_mem_compared hr.mem_compared
  simp only [currentSearch, inRegister, hs, bind_eq_ok_iff, liftFault_eq_ok_iff] at hcurrent
  obtain ⟨-, -, hnew⟩ := hcurrent
  exact ⟨s₀, s, as, es, hsolves, hnew, hsolve⟩

/-- What a solve tells begins with the numbers of nodes and edges. -/
theorem events_solvedWith {s₀ s : Search} {as : List Augmentation} {es : Array Edge} {m : Int}
    (hp : g.network.Plain m)
    (hnew : Search.ofNetwork r g.network g.config.reparent = .ok s₀)
    (h : Solves g.network m s₀ s as es) :
    (g.solvedWith s₀ s as es).events =
      .solving (g.solvedWith s₀ s as es).graph.numNodes (g.solvedWith s₀ s as es).graph.numEdges ::
        (as.map .augmented ++ [Event.ending s]) := by
  have hbalances := h.balances
  rw [hp.bare_eq] at hbalances
  obtain ⟨hnodes, hedges⟩ := solving_eq (.new hnew) hbalances
  have hsize : es.size = g.network.edges.size := by
    have hmap := congrArg Array.size h.bare_eq
    simpa using hmap
  have hnum : (g.solvedWith s₀ s as es).graph.numEdges = g.network.numEdges := hsize
  rw [hnum]
  show Event.solving _ _ :: _ = _
  rw [hnodes, hedges]
  rfl

/-- **Loops are invisible to a solve.**  Insert any number of them anywhere among the edges of a
graph, of any capacities for which the check before the first search still passes: both graphs are
solved and report the same, and the loops carry nothing. -/
theorem solve_of_insertsLoops (hr : r.IsMachine bits) (hg : g.Built) (hg' : g'.Built)
    (hs : g.search = none) (hs' : g'.search = none)
    (hreparent : g'.config.reparent = g.config.reparent)
    (h : Network.InsertsLoops ρ g.network g'.network)
    (hcheck : checkOverflow r g.network = .ok ())
    (hcheck' : checkOverflow r g'.network = .ok ()) :
    ∃ x x', g.solve = .ok x ∧ g'.solve = .ok x' ∧ SameUpToLoops ρ x x' := by
  have hp := (hg.valid hr).plain hs
  have hp' := (hg'.valid hr).plain hs'
  obtain ⟨s₀, s, as, es, hsolves, hnew, hsolve⟩ := exists_solve_of_check hr hg hs hcheck
  obtain ⟨s₀', s', as', es', hsolves', hnew', hsolve'⟩ :=
    exists_solve_of_check hr hg' hs' hcheck'
  -- the two searches begin, and so end, in the same state up to the numbers of the edges
  rw [hreparent] at hnew'
  have h₀ := Search.renames_ofNetwork h hp.toWellFormed hp'.toWellFormed r g.config.reparent
    _ _ hnew hnew'
  obtain ⟨hend, rfl⟩ : s.Renames ρ s' ∧ as' = as :=
    h₀.solve r _ _ (hsolves.solve_eq r hr.keeps) (hsolves'.solve_eq r hr.keeps)
  have hnodes : g'.numNodes = g.numNodes := congrArg Array.size h.terminals_eq
  have hget := hsolves.getElem?_edges
  have hget' := hsolves'.getElem?_edges
  rw [hp.bare_eq] at hget
  rw [hp'.bare_eq] at hget'
  refine ⟨_, _, hsolve, hsolve', hend.flow_eq, ?_, ?_, ?_, ?_, _,
    events_solvedWith hp hnew hsolves, ?_⟩
  · intro v
    show (if v < g'.numNodes then some (s'.segment v) else none) =
      if v < g.numNodes then some (s.segment v) else none
    rw [hnodes, hend.segment_eq]
  · intro v
    show s'.residual.excess[v]? = s.residual.excess[v]?
    rw [hend.excess_eq]
  · intro k
    show es'[ρ k]? = es[k]?
    rw [hget, hget', h.getElem?_edges]
    have hcapacity : s'.residual.arcs.capacity ⟨ρ k, .forward⟩ =
        s.residual.arcs.capacity ⟨k, .forward⟩ := by
      unfold ArcTable.capacity
      rw [hend.arcs.getElem?_pairs]
    cases he : g.network.edges[k]? with
    | none => rfl
    | some e =>
      have he' := (h.getElem?_edges k).trans he
      rw [ArcTable.along_of_getElem? he, ArcTable.along_of_getElem? he', hcapacity]
  · intro k e he hk
    have hbalances := hsolves'.complete.balances
    rw [hp'.bare_eq] at hbalances
    have he' : es'[k]? = some e := he
    rw [hget'] at he'
    obtain ⟨e₀, he₀, rfl⟩ := Option.map_eq_some_iff.1 he'
    show s'.residual.arcs.along g'.network k = 0
    rw [ArcTable.along_of_getElem? he₀, hbalances.arcs.loop_eq k e₀ he₀ (h.isLoop he₀ hk),
      Int.sub_self]
  · rw [← hreparent] at hnew'
    rw [events_solvedWith hp' hnew' hsolves']
    simp only [Event.ending, hend.flow_eq, hend.augmentations_eq, hend.adoptions_eq]

/-- The bridge with a loop at either node, one before its edge and one behind. -/
def loopyBridge (r : Register) : Graph r :=
  (session r ⟨3, 1, true⟩
    [.edit (.addNodes 2), .edit (.setTerminalWeights 0 5 0), .edit (.setTerminalWeights 1 0 3),
      .edit (.addEdge 1 1 90 37), .edit (.addEdge 0 1 3 1), .edit (.addEdge 0 0 0 4)]).2

theorem solve_of_insertsLoops_bridge :
    ∃ x x', (bridge (.signed 8)).solve = .ok x ∧ (loopyBridge (.signed 8)).solve = .ok x' ∧
      SameUpToLoops (Network.raise 2 ∘ Network.raise 0 ∘ id) x x' := by
  have hbefore : Network.InsertsLoops (Network.raise 0 ∘ id) (bridge (.signed 8)).network
      (.ofEdges [.idle 1 1 90 37, .idle 0 1 3 1] #[⟨5, 0⟩, ⟨0, 3⟩]) :=
    .insert [] [.idle 0 1 3 1] _ (.refl _) (by decide)
  have hbehind : Network.InsertsLoops (Network.raise 2 ∘ Network.raise 0 ∘ id)
      (bridge (.signed 8)).network (loopyBridge (.signed 8)).network :=
    .insert [.idle 1 1 90 37, .idle 0 1 3 1] [] _ hbefore (by decide)
  exact solve_of_insertsLoops ⟨by decide, Or.inl rfl⟩ bridge_built ⟨_, _, by decide, rfl⟩ rfl rfl
    rfl hbehind (by decide +kernel) (by decide +kernel)

end Graph

end MinCut
