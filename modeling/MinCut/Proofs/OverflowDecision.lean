/-
# Which graphs are too large

A graph that is not solved is refused for its sums exactly if, over the integers, the two
capacities of some edge add up to more than the register can hold, or the weights of the source and
the weights of the sink both do.  Loops count like all other edges.  If it is not refused, it is
solved: nothing that comes after the check can fail.

The check adds up one number after the other and stops at the first sum that does not fit.  The
numbers are not negative, whatever edits have led to the graph, so it does not matter where it
stops, and the order of edges and nodes does not matter either.

Key facts:
* `tooLarge_iff_not_fits` : what the register has no room for, of a plain network;
* `SameAmounts.tooLarge_iff` : the order of edges and nodes;
* `solve_decides` : which graphs are refused for their sums.
-/
import MinCut.Proofs.Agreement
import MinCut.Proofs.NoFaults

namespace MinCut

namespace Network

variable {N M : Network} {m : Int}

/-! ## Networks that are too large -/

/-- **The network is too large** for the numbers up to `m`: the capacities of one of its edges add
up to more, or the weights of both terminals do. -/
def TooLarge (N : Network) (m : Int) : Prop :=
  (∃ e ∈ N.edges, m < e.capacity + e.reverseCapacity) ∨
    (m < N.nodeSum fun _ t => t.source) ∧ m < N.nodeSum fun _ t => t.sink

/-- A plain network is too large if it does not leave room; no single weight ever is. -/
theorem Plain.tooLarge_iff_not_fits (h : N.Plain m) : N.TooLarge m ↔ ¬ N.Fits m := by
  constructor
  · rintro (⟨e, he, hlt⟩ | ⟨hsource, hsink⟩) hm
    · have hle := hm.pair_le e he
      omega
    · have hle := hm.total_le
      omega
  · intro hnot
    by_contra hsmall
    rw [TooLarge, not_or, not_exists, not_and_or, not_lt, not_lt] at hsmall
    obtain ⟨hedges, htotals⟩ := hsmall
    refine hnot ⟨fun e he => ?_, h.source_le, h.sink_le, htotals⟩
    exact Int.not_lt.1 fun hlt => hedges e ⟨he, hlt⟩

/-! ## The order of edges and nodes -/

/-- The two networks have the same capacities and the same terminal weights, in any order of the
edges and of the nodes. -/
structure SameAmounts (N M : Network) : Prop where
  capacities_perm : (N.edges.toList.map fun e => (e.capacity, e.reverseCapacity)).Perm
    (M.edges.toList.map fun e => (e.capacity, e.reverseCapacity))
  weights_perm : N.terminals.toList.Perm M.terminals.toList

theorem SameAmounts.nodeSum_eq (h : SameAmounts N M) (p : TerminalWeights → Int) :
    (M.nodeSum fun _ t => p t) = N.nodeSum fun _ t => p t := by
  rw [nodeSum_eq_sum_map, nodeSum_eq_sum_map]
  exact (h.weights_perm.map p).sum_eq.symm

theorem exists_edge_iff (N : Network) (p : Int × Int → Prop) :
    (∃ e ∈ N.edges, p (e.capacity, e.reverseCapacity)) ↔
      ∃ c ∈ N.edges.toList.map fun e => (e.capacity, e.reverseCapacity), p c := by
  simp

/-- **The order does not matter** for what is too large. -/
theorem SameAmounts.tooLarge_iff (h : SameAmounts N M) : M.TooLarge m ↔ N.TooLarge m := by
  have hedges := fun N : Network => exists_edge_iff N fun c => m < c.1 + c.2
  unfold TooLarge
  rw [h.nodeSum_eq TerminalWeights.source, h.nodeSum_eq TerminalWeights.sink, hedges M, hedges N]
  simp only [h.capacities_perm.mem_iff]

end Network

namespace Graph

variable {r : Register} {g g' : Graph r} {bits : Nat}

/-! ## Refused solves -/

/-- The network of a graph that is not solved is plain. -/
theorem Built.plain (hr : r.IsMachine bits) (hg : g.Built) (hs : g.status = .notSolved) :
    g.network.Plain (Register.limit bits) :=
  (hg.valid hr).plain (checkEditable_eq_ok (g.checkEditable_eq_ok_iff.2 hs))

/-- A solve is refused for the sums if the network does not leave room. -/
theorem Built.solve_eq_overflow_iff (hr : r.IsMachine bits) (hg : g.Built)
    (hs : g.status = .notSolved) :
    g.solve = .error .overflow ↔ ¬ g.network.Fits (Register.limit bits) := by
  have hv := hg.valid hr
  have hp := hg.plain hr hs
  constructor
  · intro he hm
    have hcheck := (hv.check_of_refused_solve hr he).2.1
    rw [checkOverflow_of_fits (fun _ => Register.fits_of_mem_compared hr.mem_compared)
      hp.toWellFormed hm] at hcheck
    cases hcheck
  · intro hnot
    cases hx : g.solve with
    | ok x =>
      have hm := hv.fits_of_solve hr hx
      rw [hp.bare_eq] at hm
      exact absurd hm hnot
    | error e => rw [(hv.check_of_refused_solve hr hx).2.2]

/-- **Which graphs are refused for their sums.**  A graph that is not solved is refused exactly if
its network is too large for the register, and solved if it is not.  Another order of its edges and
nodes does not change this. -/
theorem solve_decides (hr : r.IsMachine bits) (hg : g.Built) (hs : g.status = .notSolved) :
    (g.solve = .error .overflow ↔ g.network.TooLarge (Register.limit bits)) ∧
      (¬ g.network.TooLarge (Register.limit bits) → ∃ x, g.solve = .ok x) ∧
        ∀ g' : Graph r, g'.Built → g'.status = .notSolved → g.network.SameAmounts g'.network →
          (g'.solve = .error .overflow ↔ g.solve = .error .overflow) := by
  have hdecides : ∀ {g : Graph r}, g.Built → g.status = .notSolved →
      (g.solve = .error .overflow ↔ g.network.TooLarge (Register.limit bits)) := by
    intro g hg hs
    rw [hg.solve_eq_overflow_iff hr hs, (hg.plain hr hs).tooLarge_iff_not_fits]
  refine ⟨hdecides hg hs, ?_, ?_⟩
  · intro hsmall
    cases hx : g.solve with
    | ok x => exact ⟨x, rfl⟩
    | error e =>
      obtain rfl := ((hg.valid hr).check_of_refused_solve hr hx).2.2
      exact absurd ((hdecides hg hs).1 hx) hsmall
  · intro g' hg' hs' hsame
    rw [hdecides hg' hs', hdecides hg hs, hsame.tooLarge_iff]

/-- A node with a loop whose capacities do not add up in eight bits, before another edge. -/
def heavyLoop (r : Register) : Graph r :=
  (session r .standard
    [.edit (.addNodes 2), .edit (.addTerminalWeights 0 5 1), .edit (.addTerminalWeights 0 6 0),
      .edit (.addEdge 0 0 127 1), .edit (.addEdge 0 1 3 1)]).2

/-- The same with the nodes and the edges the other way round. -/
def heavyLoopReordered (r : Register) : Graph r :=
  (session r .standard
    [.edit (.addNodes 2), .edit (.setTerminalWeights 1 11 1), .edit (.addEdge 1 0 3 1),
      .edit (.addEdge 1 1 127 1)]).2

/-- The two loops are refused, and the graph in which one terminal alone could carry more than there
is room for is solved. -/
theorem solve_decides_heavyLoop :
    (heavyLoop (.signed 8)).solve = .error .overflow ∧
      (heavyLoopReordered (.signed 8)).solve = .error .overflow ∧
        (Register.limit 8 < (lopsided (.signed 8)).network.nodeSum fun _ t => t.sink) ∧
          ∃ x, (lopsided (.signed 8)).solve = .ok x := by
  have hlarge : (heavyLoop (.signed 8)).network.TooLarge (Register.limit 8) := by
    refine Or.inl ⟨.idle 0 0 127 1, ?_, by decide⟩
    rw [show (heavyLoop (.signed 8)).network.edges = #[.idle 0 0 127 1, .idle 0 1 3 1] by
      decide +kernel]
    simp
  have hsame : (heavyLoop (.signed 8)).network.SameAmounts
      (heavyLoopReordered (.signed 8)).network :=
    ⟨by decide +kernel, by decide +kernel⟩
  have hsmall : ¬ (lopsided (.signed 8)).network.TooLarge (Register.limit 8) := by
    rw [Network.TooLarge,
      show (lopsided (.signed 8)).network.edges = #[.idle 0 1 60 7, .idle 0 2 50 0] by
        decide +kernel]
    simp only [not_or, not_exists, not_and]
    exact ⟨by decide +kernel, fun h => absurd h (by decide +kernel)⟩
  have hr : (Register.signed 8).IsMachine 8 := ⟨by decide, Or.inl rfl⟩
  obtain ⟨hrefused, -, horder⟩ :=
    solve_decides (g := heavyLoop (.signed 8)) hr ⟨_, _, by decide, rfl⟩ rfl
  have hheavy := hrefused.2 hlarge
  refine ⟨hheavy, (horder _ ⟨_, _, by decide, rfl⟩ rfl hsame).2 hheavy, by decide +kernel, ?_⟩
  exact (solve_decides hr ⟨_, _, by decide, rfl⟩ rfl).2.1 hsmall

end Graph

end MinCut
