/-
# Solved graphs stay as they are

A solve of a complete search plants the forest afresh and grows it over the residual network that
is left.  It finds no augmenting path, for the flow is as large as any already, and so it leaves
the residual network alone.  The labels of the new forest may be others, but not its cut: the
source tree of a complete search is the source side of every minimum cut, and there is only one
such set.  So a solved graph answers every later call as it did right after its first solve.

Key facts:
* `exists_forest_of_finish` : a run without augmentation leaves all but the forest, by induction on
  the turns;
* `Complete.solve_eq` : a complete search that is solved again augments nothing and ends with the
  same cut;
* `SolvedAlike.call` : one call to a solved graph;
* `solved_answers` : all calls to a solved graph, by induction on the calls.
-/
import MinCut.Graph.Query
import MinCut.Proofs.Sessions

namespace MinCut

/-! ## Runs without augmentation -/

namespace Run

variable {r : Register} {x y : Run} {s : Search}

/-- The last turn leaves all but the forest. -/
theorem exists_forest_of_finished (h : x.turn r = .ok (.finished s)) :
    ∃ f, s = { x.search with forest := f } := by
  rcases turn_cases h with ⟨f, -, ⟨⟩⟩ | ⟨i, f, g, -, ⟨-, ⟨⟩⟩ | ⟨mt, y, a, -, -, ⟨⟩⟩⟩
  exact ⟨f, rfl⟩

/-- A turn without augmentation leaves all but the forest. -/
theorem exists_forest_of_next (h : x.turn r = .ok (.next y none)) :
    ∃ f, y.search = { x.search with forest := f } := by
  rcases turn_cases h with ⟨f, -, ⟨⟩⟩ | ⟨i, f, g, -, ⟨-, ⟨⟩⟩ | ⟨mt, y, a, -, -, ⟨⟩⟩⟩
  exact ⟨g, rfl⟩

/-- **A run that augments nothing** leaves the residual network and the counters. -/
theorem exists_forest_of_finish {n : Nat} (h : x.finish r n = .ok (s, [])) :
    ∃ f, s = { x.search with forest := f } := by
  induction n generalizing x with
  | zero =>
    unfold finish at h
    obtain ⟨t, ht, h⟩ := bind_eq_ok_iff.1 h
    cases t with
    | finished s' =>
      cases h
      exact exists_forest_of_finished ht
    | next y a => cases h
  | succ n ih =>
    unfold finish at h
    obtain ⟨t, ht, h⟩ := bind_eq_ok_iff.1 h
    cases t with
    | finished s' =>
      cases h
      exact exists_forest_of_finished ht
    | next y a =>
      obtain ⟨⟨s', as⟩, hrest, h⟩ := bind_eq_ok_iff.1 h
      obtain ⟨rfl, happend⟩ := Prod.mk.inj (Except.ok.inj h)
      obtain ⟨hnil, rfl⟩ := List.append_eq_nil_iff.1 happend
      cases a with
      | some a => cases hnil
      | none =>
        obtain ⟨f, rfl⟩ := ih hrest
        obtain ⟨g, hy⟩ := exists_forest_of_next ht
        exact ⟨f, by rw [hy]⟩

end Run

namespace Search

variable {N : Network} {m : Int} {s s' : Search}

/-! ## Complete searches of one network -/

/-- The cut of a complete search is a minimum cut. -/
theorem Complete.isMinimumCut (h : s.Complete N) (hN : N.WellFormed) :
    N.IsMinimumCut s.segment := by
  intro other
  rw [← h.flow_eq_cutCapacity hN, ← h.balances.flowValue_eq]
  exact Network.flowValue_le_cutCapacity hN (h.balances.isFeasible hN) other

/-- Complete searches of one network have found the same value. -/
theorem Complete.flow_unique (h : s.Complete N) (h' : s'.Complete N) (hN : N.WellFormed) :
    s'.residual.flow = s.residual.flow := by
  rw [h.flow_eq_cutCapacity hN, h'.flow_eq_cutCapacity hN]
  exact Int.le_antisymm (h'.isMinimumCut hN _) (h.isMinimumCut hN _)

/-- **Complete searches of one network end with the same cut**, for the source tree of either one
lies in the source side of the other cut. -/
theorem Complete.segment_unique (h : s.Complete N) (h' : s'.Complete N) (hN : N.WellFormed) :
    s'.segment = s.segment := by
  funext v
  cases hv : s.segment v with
  | source => exact h.side_of_segment hN (h'.isMinimumCut hN) hv
  | sink =>
    cases hv' : s'.segment v with
    | sink => rfl
    | source =>
      have hs := h'.side_of_segment hN (h.isMinimumCut hN) hv'
      rw [hv] at hs
      cases hs

/-- Augmentations that together push nothing are none. -/
theorem Accounts.eq_nil {as : List Augmentation} (h : s.Accounts N s' as)
    (hflow : s'.residual.flow = s.residual.flow) : as = [] := by
  have hsum := h.flow_eq
  cases as with
  | nil => rfl
  | cons a as =>
    have ha := h.bottleneck_pos a List.mem_cons_self
    have hrest : 0 ≤ (as.map Augmentation.bottleneck).sum := by
      apply List.sum_nonneg
      intro x hx
      obtain ⟨b, hb, rfl⟩ := List.mem_map.1 hx
      exact Int.le_of_lt (h.bottleneck_pos b (List.mem_cons_of_mem a hb))
    rw [List.map_cons, List.sum_cons] at hsum
    omega

/-- **A complete search that is solved again** augments nothing, leaves all but the forest and ends
with the same cut. -/
theorem Complete.solve_eq (h : s.Complete N) (hN : N.WellFormed) (hm : N.Fits m) :
    ∃ f : Forest, (∀ r : Register, r.Keeps m → s.solve r = .ok ({ s with forest := f }, [])) ∧
      segment { s with forest := f } = s.segment := by
  obtain ⟨s', as, hok, hcomplete, hacc⟩ := solve_spec hN hm h.balances
  obtain rfl := hacc.eq_nil (h.flow_unique hcomplete hN)
  have hsegment := h.segment_unique hcomplete hN
  obtain ⟨f, hf, -, -⟩ := restart_spec h.balances
  have hsolve := hok .exact (Register.keeps_exact m)
  simp only [solve, hf, bind_eq_ok_iff, Except.ok.injEq, exists_eq_left'] at hsolve
  obtain ⟨⟨s'', as⟩, hfinish, ⟨⟩, -, hs⟩ := hsolve
  obtain ⟨rfl, rfl⟩ := Prod.mk.inj (Except.ok.inj hs)
  obtain ⟨g, rfl⟩ := Run.exists_forest_of_finish hfinish
  exact ⟨g, hok, hsegment⟩

end Search

namespace Graph

variable {r : Register} {g g' : Graph r} {x : Solved r} {s : Search} {bits : Nat}

/-! ## Graphs that answer alike -/

/-- **The two graphs answer alike** whatever is asked about them. -/
structure SameAnswers (g g' : Graph r) : Prop where
  numNodes_eq : g'.numNodes = g.numNodes
  numEdges_eq : g'.numEdges = g.numEdges
  status_eq : g'.status = g.status
  maximumFlow_eq : g'.maximumFlow = g.maximumFlow
  minimumCut_eq : g'.minimumCut = g.minimumCut
  segment_eq : ∀ v, g'.segment? v = g.segment? v
  residual_eq : ∀ v, g'.terminalResidual? v = g.terminalResidual? v
  edge_eq : ∀ e, g'.edge? e = g.edge? e

/-- The answers named are all that a question can ask for. -/
theorem SameAnswers.ask_eq (h : SameAnswers g g') (q : Question) : g'.ask q = g.ask q := by
  have hsegment : g'.segment? = g.segment? := funext h.segment_eq
  have hresidual : g'.terminalResidual? = g.terminalResidual? := funext h.residual_eq
  have hedge : g'.edge? = g.edge? := funext h.edge_eq
  cases q with
  | segmentOf v => simp only [ask, segmentOf, h.segment_eq]
  | segment v => simp only [ask, h.segment_eq]
  | maximumFlow => simp only [ask, h.maximumFlow_eq]
  | minimumCut => simp only [ask, h.minimumCut_eq]
  | edge e => simp only [ask, h.edge_eq]
  | terminalResidual v => simp only [ask, h.residual_eq]
  | numNodes => simp only [ask, h.numNodes_eq]
  | numEdges => simp only [ask, h.numEdges_eq]
  | status => simp only [ask, h.status_eq]
  | inlineText => simp only [ask, inlineText, fields, h.numNodes_eq, h.numEdges_eq, h.status_eq]
  | blockText => simp only [ask, blockText, fields, h.numNodes_eq, h.numEdges_eq, h.status_eq]
  | edgeText e => simp only [ask, edgeText, h.edge_eq]
  | snapshot =>
    simp only [ask, snapshot, h.numNodes_eq, h.numEdges_eq, h.status_eq, h.maximumFlow_eq,
      h.minimumCut_eq, hsegment, hresidual, hedge]

/-! ## Solving a solved graph -/

/-- The graph `g'` is solved like `g`: by a search that may have another forest, but has the same
residual network and the same cut. -/
structure SolvedAlike (g g' : Graph r) : Prop where
  network_eq : g'.network = g.network
  exists_search : ∃ s s', g.search = some s ∧ g'.search = some s' ∧ s'.residual = s.residual ∧
    s'.segment = s.segment

theorem SolvedAlike.sameAnswers (h : SolvedAlike g g') : SameAnswers g g' := by
  obtain ⟨s, s', hs, hs', hresidual, hsegment⟩ := h.exists_search
  have hnodes : g'.numNodes = g.numNodes := by rw [numNodes, numNodes, h.network_eq]
  have hsides : ∀ v, g'.segment? v = g.segment? v := by
    intro v
    simp only [segment?, hnodes, hs, hs', hsegment]
  refine ⟨hnodes, ?_, ?_, ?_, ?_, hsides, ?_, ?_⟩
  · rw [numEdges, numEdges, h.network_eq]
  · simp only [status, hs, hs']
  · simp only [maximumFlow, hs, hs', hresidual]
  · simp only [minimumCut, hnodes, hsides]
  · intro v
    simp only [terminalResidual?, hs, hs', hresidual]
  · intro e
    rw [edge?, edge?, h.network_eq]

theorem SolvedAlike.trans {g'' : Graph r} (h : SolvedAlike g g') (h' : SolvedAlike g' g'') :
    SolvedAlike g g'' := by
  obtain ⟨s, s', hs, hs', hresidual, hsegment⟩ := h.exists_search
  obtain ⟨t, t', ht, ht', hresidual', hsegment'⟩ := h'.exists_search
  obtain rfl : s' = t := Option.some.inj (hs'.symm.trans ht)
  exact ⟨h'.network_eq.trans h.network_eq, s, t', hs, ht', hresidual'.trans hresidual,
    hsegment'.trans hsegment⟩

/-- **A solved graph that is solved again** augments nothing and keeps the network and all of its
search but the forest, so it is solved alike. -/
theorem exists_solve_of_solved (hr : r.IsMachine bits) (h : g.Valid (Register.limit bits))
    (hs : g.search = some s) :
    ∃ f, g.solve = .ok (g.solvedWith s { s with forest := f } [] g.network.edges) ∧
      SolvedAlike g (g.solvedWith s { s with forest := f } [] g.network.edges).graph := by
  have hby := h.solved s hs
  obtain ⟨s₀, s', as, es, hsolves, hok⟩ := exists_solves h hby.fits
  obtain ⟨hcurrent, hsolve⟩ := hok r hr.keeps fun x => Register.fits_of_mem_compared hr.mem_compared
  -- the search that goes on is the one kept
  obtain rfl : s = s₀ := by
    simp only [currentSearch, inRegister, hs, pure, Except.pure] at hcurrent
    exact Except.ok.inj hcurrent
  obtain ⟨f, hf, hsegment⟩ := hby.complete.solve_eq hby.wellFormed hby.fits
  have hsame := hsolves.solve_eq r hr.keeps
  rw [hf r hr.keeps] at hsame
  obtain ⟨rfl, rfl⟩ := Prod.mk.inj (Except.ok.inj hsame)
  -- the flows recorded once are recorded again
  obtain rfl : es = g.network.edges := by
    apply Array.ext_getElem?
    intro k
    rw [hsolves.getElem?_edges k]
    cases he : g.network.edges[k]? with
    | none => rfl
    | some e => rw [Option.map_some, Edge.record, ← hby.recorded k e he]
  exact ⟨f, hsolve, rfl, s, _, hs, rfl, rfl, hsegment⟩

/-! ## Calls to a solved graph -/

/-- Every edit of a solved graph is refused, whatever its arguments. -/
theorem edit_of_solved (hs : g.search = some s) (e : Edit) : g.edit e = .error .frozen := by
  have hedit : g.checkEditable = .error .frozen := by simp only [checkEditable, hs]
  cases e <;>
    simp only [edit, addNode, addNodes, addEdge, setTerminalWeights, addTerminalWeights, hedit,
      bind, Except.bind]

/-- What a graph that was just solved replies to a call. -/
def Solved.reply (x : Solved r) : Call → Reply
  | .edit _ => .refused .frozen
  | .solve => .capacity x.flow
  | .ask q => x.graph.ask q

/-- The value that a solve returns is the one that its search has found. -/
theorem exists_search_of_solve (hx : g.solve = .ok x) :
    ∃ s, x.graph.search = some s ∧ x.flow = s.residual.flow := by
  simp only [solve, bind_eq_ok_iff] at hx
  obtain ⟨s, -, ⟨s', as⟩, -, es, -, hx⟩ := hx
  obtain rfl := Except.ok.inj hx
  exact ⟨s', rfl, rfl⟩

/-- **One call** to a graph that is solved like `x.graph`, whatever its arguments: it is answered
as `x` says, and the graph stays solved like `x.graph`. -/
theorem SolvedAlike.call (hr : r.IsMachine bits) (hx : g.solve = .ok x)
    (h : SolvedAlike x.graph g') (hv : g'.Valid (Register.limit bits)) (c : Call) :
    (g'.call c).1.reply = x.reply c ∧ SolvedAlike x.graph (g'.call c).2 ∧
      (g'.call c).2.Valid (Register.limit bits) := by
  obtain ⟨s, s', hs, hs', hresidual, hsegment⟩ := h.exists_search
  cases c with
  | edit e =>
    rw [call_of_edit_error (edit_of_solved hs' e)]
    exact ⟨rfl, h, hv⟩
  | ask q =>
    rw [call_of_question]
    exact ⟨h.sameAnswers.ask_eq q, h, hv⟩
  | solve =>
    obtain ⟨f, hy, hagain⟩ := exists_solve_of_solved hr hv hs'
    obtain ⟨s₁, hs₁, hflow₁⟩ := exists_search_of_solve hx
    obtain rfl : s₁ = s := Option.some.inj (hs₁.symm.trans hs)
    simp only [Graph.call, hy]
    refine ⟨?_, h.trans hagain, hv.solve hr hy⟩
    show Reply.capacity s'.residual.flow = .capacity x.flow
    rw [hflow₁, hresidual]

/-- Any number of calls to a graph that is solved like `x.graph`. -/
theorem SolvedAlike.calls (hr : r.IsMachine bits) (hx : g.solve = .ok x)
    (h : SolvedAlike x.graph g') (hv : g'.Valid (Register.limit bits)) (cs : List Call) :
    (transcript Graph.call g' cs).1.map Answer.reply = cs.map x.reply ∧
      SolvedAlike x.graph (transcript Graph.call g' cs).2 := by
  induction cs generalizing g' with
  | nil => exact ⟨rfl, h⟩
  | cons c cs ih =>
    obtain ⟨hreply, hcall, hvalid⟩ := h.call hr hx hv c
    obtain ⟨hreplies, hcalls⟩ := ih hcall hvalid
    refine ⟨?_, hcalls⟩
    show (g'.call c).1.reply :: _ = x.reply c :: cs.map x.reply
    rw [hreply, hreplies]

/-- **A solved graph is constant.**  Whatever is called after the first solve, in any order and
with any arguments, every solve returns the flow of the first, every edit is refused because the
graph is solved, every question is answered as right after the first solve, and the graph that is
left answers so as well. -/
theorem solved_answers (hr : r.IsMachine bits) (hg : g.Built) (hx : g.solve = .ok x)
    (cs : List Call) :
    (transcript Graph.call x.graph cs).1.map Answer.reply = cs.map x.reply ∧
      SameAnswers x.graph (transcript Graph.call x.graph cs).2 := by
  obtain ⟨s, hs, -⟩ := exists_search_of_solve hx
  have hself : SolvedAlike x.graph x.graph := ⟨rfl, s, s, hs, hs, rfl, rfl⟩
  obtain ⟨hreplies, hgraph⟩ := hself.calls hr hx ((hg.valid hr).solve hr hx) cs
  exact ⟨hreplies, hgraph.sameAnswers⟩

/-- The bridge, solved, then solved again with edits in between, among them an edge between nodes
that it does not have. -/
theorem solved_answers_bridge :
    ∃ x, (bridge (.signed 8)).solve = .ok x ∧
      (transcript Graph.call x.graph
          [.edit .addNode, .edit (.addEdge 7 9 (-1) 0), .solve, .ask .minimumCut,
            .ask (.edge 0)]).1.map Answer.reply =
        [.refused .frozen, .refused .frozen, .capacity 3, .nodes [0],
          .edge? (x.graph.edge? 0)] ∧
      SameAnswers x.graph (transcript Graph.call x.graph
          [.edit .addNode, .edit (.addEdge 7 9 (-1) 0), .solve, .ask .minimumCut,
            .ask (.edge 0)]).2 := by
  obtain ⟨x, hx, hflow, hcut⟩ := exists_solve_bridge
  obtain ⟨hreplies, hsame⟩ := solved_answers ⟨by decide, Or.inl rfl⟩ bridge_built hx
    [.edit .addNode, .edit (.addEdge 7 9 (-1) 0), .solve, .ask .minimumCut, .ask (.edge 0)]
  refine ⟨x, hx, ?_, hsame⟩
  rw [hreplies]
  simp only [List.map_cons, List.map_nil, Solved.reply, ask, hflow, hcut]

end Graph

end MinCut
