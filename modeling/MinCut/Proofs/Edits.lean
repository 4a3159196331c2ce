/-
# Edits

All edits are checked in the same way: the network must not be frozen, the nodes that are named
must exist, no capacity may be negative, and no sum of weights may leave the register.  What is
wrong first is the error, and an edit with nothing wrong is made.

Key facts:
* `edit_eq` : an edit is refused for what is wrong with it first, or it is made;
* `search_of_edit` : an edit is made only before the first solve;
* `events_of_edit` : what is heard of an edit.
-/
import MinCut.Proofs.SolvedGraphs

namespace MinCut

namespace Graph

variable {r : Register} {g g' : Graph r} {e : Edit} {reply : Reply}
variable {err : GraphError} {v : Nat}

/-! ## What an edit is checked for -/

/-- The nodes that a change names, in the order of its arguments. -/
def Edit.nodes : Edit → List Nat
  | .addNode => []
  | .addNodes _ => []
  | .addEdge u v _ _ => [u, v]
  | .setTerminalWeights v _ _ => [v]
  | .addTerminalWeights v _ _ => [v]

/-- The capacities that a change gives. -/
def Edit.capacities : Edit → List Int
  | .addNode => []
  | .addNodes _ => []
  | .addEdge _ _ capacity reverseCapacity => [capacity, reverseCapacity]
  | .setTerminalWeights _ source sink => [source, sink]
  | .addTerminalWeights _ source sink => [source, sink]

/-- The weights that a change accumulates, that of the source first. -/
def Edit.sums (g : Graph r) : Edit → List Int
  | .addTerminalWeights v source sink =>
    [(g.terminalWeights v).source + source, (g.terminalWeights v).sink + sink]
  | _ => []

/-- Why a change is refused, if it is: what is wrong with it first. -/
def refusal? (g : Graph r) (e : Edit) : Option GraphError :=
  if g.search.isSome then
    some .frozen
  else
    match e.nodes.find? fun v => decide (g.numNodes ≤ v) with
    | some v => some (.unknownNode v)
    | none =>
      if ∃ x ∈ e.capacities, x < 0 then
        some .negativeCapacity
      else if ∃ z ∈ e.sums g, r.fits z = false then
        some .overflow
      else
        none

/-- What a change that is not refused replies, and what it makes of the graph. -/
def made (g : Graph r) : Edit → Reply × Graph r
  | .addNode => (.number g.numNodes, g.withTerminals (g.network.terminals.push .zero))
  | .addNodes n => (.nodes (List.range' g.numNodes n),
    g.withTerminals (g.network.terminals ++ Array.replicate n .zero))
  | .addEdge u v capacity reverseCapacity =>
    let edges := g.network.edges.push (.idle u v capacity reverseCapacity)
    (.number g.numEdges, { g with network := { g.network with edges } })
  | .setTerminalWeights v source sink =>
    (.done, g.withTerminals (g.network.terminals.setIfInBounds v ⟨source, sink⟩))
  | .addTerminalWeights v source sink =>
    let w := g.terminalWeights v
    (.done, g.withTerminals
      (g.network.terminals.setIfInBounds v ⟨w.source + source, w.sink + sink⟩))

theorem checkNode_eq (g : Graph r) (v : Nat) :
    g.checkNode v = if g.numNodes ≤ v then .error (.unknownNode v) else .ok () := by
  unfold checkNode
  by_cases h : v < g.numNodes
  · rw [if_pos h, if_neg (by omega)]
  · rw [if_neg h, if_pos (by omega)]

theorem addCapacities_eq (r : Register) (x y : Int) : addCapacities r x y =
    if r.fits (x + y) = false then .error .overflow else .ok (x + y) := by
  unfold addCapacities Register.checkedAdd
  cases r.fits (x + y) <;> rfl

/-- **An edit** is refused for what is wrong with it first, or it is made. -/
theorem edit_eq (g : Graph r) (e : Edit) : g.edit e =
    match g.refusal? e with
    | some err => .error err
    | none => .ok (g.made e) := by
  cases hs : g.search with
  | some s => simp only [edit_of_solved hs, refusal?, hs, Option.isSome_some, if_true]
  | none =>
    have hedit : g.checkEditable = .ok () := by simp only [checkEditable, hs]
    cases e with
    | addNode | addNodes n =>
      simp only [edit, addNode, addNodes, hedit, bind, Except.bind, pure, Except.pure]
      simp [refusal?, hs, made, Edit.nodes, Edit.capacities, Edit.sums]
    | addEdge u v x y =>
      simp only [edit, addEdge, hedit, checkNode_eq, checkCapacities, bind, Except.bind, pure,
        Except.pure]
      by_cases hu : g.numNodes ≤ u
      · simp [refusal?, hs, Edit.nodes, hu]
      by_cases hv : g.numNodes ≤ v
      · simp [refusal?, hs, Edit.nodes, hu, hv]
      by_cases hxy : x < 0 ∨ y < 0 <;>
        simp [refusal?, hs, made, Edit.nodes, Edit.capacities, Edit.sums, hu, hv, hxy]
    | setTerminalWeights v x y =>
      simp only [edit, setTerminalWeights, hedit, checkNode_eq, checkCapacities, bind, Except.bind,
        pure, Except.pure]
      by_cases hv : g.numNodes ≤ v
      · simp [refusal?, hs, Edit.nodes, hv]
      by_cases hxy : x < 0 ∨ y < 0 <;>
        simp [refusal?, hs, made, Edit.nodes, Edit.capacities, Edit.sums, hv, hxy]
    | addTerminalWeights v x y =>
      simp only [edit, addTerminalWeights, hedit, checkNode_eq, checkCapacities, addCapacities_eq,
        bind, Except.bind, pure, Except.pure]
      by_cases hv : g.numNodes ≤ v
      · simp [refusal?, hs, Edit.nodes, hv]
      by_cases hxy : x < 0 ∨ y < 0
      · simp [refusal?, hs, Edit.nodes, Edit.capacities, hv, hxy]
      by_cases hx : r.fits ((g.terminalWeights v).source + x) = false
      · simp [refusal?, hs, Edit.nodes, Edit.capacities, Edit.sums, hv, hxy, hx]
      by_cases hy : r.fits ((g.terminalWeights v).sink + y) = false <;>
        simp [refusal?, hs, made, Edit.nodes, Edit.capacities, Edit.sums, hv, hxy, hx, hy]

theorem edit_eq_error_iff : g.edit e = .error err ↔ g.refusal? e = some err := by
  rw [edit_eq]
  cases g.refusal? e <;> simp

theorem edit_eq_ok_iff {p : Reply × Graph r} :
    g.edit e = .ok p ↔ g.refusal? e = none ∧ g.made e = p := by
  rw [edit_eq]
  cases g.refusal? e <;> simp

/-- An edit is made only before the first solve, and solves nothing. -/
theorem search_of_edit (h : g.edit e = .ok (reply, g')) : g.search = none ∧ g'.search = none := by
  obtain ⟨hnone, hmade⟩ := edit_eq_ok_iff.1 h
  have hs : g.search = none := by
    cases hs : g.search with
    | none => rfl
    | some s => simp [refusal?, hs] at hnone
  have hkeep : (g.made e).2.search = g.search := by cases e <;> rfl
  rw [hmade, hs] at hkeep
  exact ⟨hs, hkeep⟩

/-! ## What is wrong first -/

/-- Of the nodes that are named, the first that does not exist is wrong. -/
theorem refusal?_eq_unknownNode_iff (hs : ¬ g.search.isSome = true) :
    g.refusal? e = some (.unknownNode v) ↔
      (e.nodes.find? fun v => decide (g.numNodes ≤ v)) = some v := by
  rw [refusal?, if_neg hs]
  cases e.nodes.find? fun v => decide (g.numNodes ≤ v) with
  | some w => simp
  | none =>
    simp only [reduceCtorEq, iff_false]
    split
    · simp
    · split <;> simp

/-- If all nodes that are named exist, the capacities are checked. -/
theorem refusal?_of_nodes (hs : ¬ g.search.isSome = true) (hnodes : ∀ v ∈ e.nodes, v < g.numNodes) :
    g.refusal? e = if ∃ x ∈ e.capacities, x < 0 then some .negativeCapacity
      else if ∃ z ∈ e.sums g, r.fits z = false then some .overflow else none := by
  have hfind : (e.nodes.find? fun v => decide (g.numNodes ≤ v)) = none := by
    simpa using hnodes
  rw [refusal?, if_neg hs, hfind]

/-- Nothing but a search can freeze the network, and nothing that is checked is a fault. -/
theorem refusal?_cases (h : g.refusal? e = some err) :
    err = .frozen ∧ g.search.isSome = true ∨ (∃ v, err = .unknownNode v) ∨
      err = .negativeCapacity ∨ err = .overflow := by
  unfold refusal? at h
  split at h
  · exact .inl ⟨(Option.some.inj h).symm, by assumption⟩
  · split at h
    · exact .inr (.inl ⟨_, (Option.some.inj h).symm⟩)
    · split at h
      · exact .inr (.inr (.inl (Option.some.inj h).symm))
      · split at h
        · exact .inr (.inr (.inr (Option.some.inj h).symm))
        · cases h

/-- **The network is frozen** exactly if the graph is solved. -/
theorem edit_eq_frozen_iff : g.edit e = .error .frozen ↔ g.search.isSome = true := by
  rw [edit_eq_error_iff]
  constructor
  · intro h
    rcases refusal?_cases h with ⟨-, hs⟩ | ⟨v, ⟨⟩⟩ | ⟨⟨⟩⟩ | ⟨⟨⟩⟩
    exact hs
  · intro hs
    simp [refusal?, hs]

/-- **No edit** is refused because of a fault. -/
theorem edit_ne_fault (g : Graph r) (e : Edit) (f : Fault) : g.edit e ≠ .error (.fault f) := by
  intro h
  rcases refusal?_cases (edit_eq_error_iff.1 h) with ⟨⟨⟩, -⟩ | ⟨v, ⟨⟩⟩ | ⟨⟨⟩⟩ | ⟨⟨⟩⟩

/-- **What is heard of an edit** is that it comes too late, if it does. -/
theorem events_of_edit (g : Graph r) (e : Edit) : (g.call (.edit e)).1.events =
    if g.search.isSome then [.rejectedEdit] else [] := by
  cases he : g.edit e with
  | error err =>
    simp only [call, he]
    rcases refusal?_cases (edit_eq_error_iff.1 he) with ⟨rfl, hs⟩ | herr
    · simp [hs, eventsOfRefusal]
    · have hs : ¬ g.search.isSome = true := by
        intro hs
        obtain rfl := Except.error.inj (he.symm.trans (edit_eq_frozen_iff.2 hs))
        rcases herr with ⟨v, ⟨⟩⟩ | ⟨⟨⟩⟩ | ⟨⟨⟩⟩
      rw [if_neg hs]
      rcases herr with ⟨v, rfl⟩ | rfl | rfl <;> rfl
  | ok p =>
    obtain ⟨reply, g'⟩ := p
    simp [call, he, (search_of_edit he).1]

end Graph

end MinCut
