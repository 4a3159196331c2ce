/-
# Only the differences of the weights matter

Raise or lower both terminal weights of every node by the same amount, one amount for each node.
Then a solve augments the same paths by the same amounts and in the same order, and the flow is
more by the sum of the amounts.

At the outset the smaller weight of each node goes straight through the node, and what is left is
the difference of its weights.  So the two searches begin with the same residual network, and with
flows that differ by the sum of the amounts.  From there on the flow is only added to.

Key facts:
* `Residual.outset_of_reparametrizes` : the residual network at the outset;
* `Graph.Abreast.exists_solve` : what one solve preserves;
* `Graph.solve_of_reparametrizes` : the first solve and all repetitions, by induction.
-/
import MinCut.Network.Reparametrization
import MinCut.Proofs.Credit
import MinCut.Proofs.Monotonicity

namespace MinCut

/-! ## At the outset -/

namespace TerminalWeights

/-- What goes straight through the node. -/
theorem min_raise (t : TerminalWeights) (x : Int) :
    min (t.raise x).source (t.raise x).sink = min t.source t.sink + x := by
  simp only [raise]
  omega

/-- What is left is the same. -/
theorem sub_raise (t : TerminalWeights) (x : Int) :
    (t.raise x).source - (t.raise x).sink = t.source - t.sink := by
  simp only [raise]
  omega

end TerminalWeights

namespace Network.Reparametrizes

variable {c : Nat → Int} {N M : Network}

theorem bare (h : Reparametrizes c N M) : Reparametrizes c N.bare M.bare where
  edges_eq := congrArg (Array.map Edge.bare) h.edges_eq
  getElem?_terminals := h.getElem?_terminals

/-- The smaller weights add up to more by the sum of the amounts. -/
theorem sum_min_eq (h : Reparametrizes c N M) :
    (M.nodeSum fun _ t => min t.source t.sink) =
      (N.nodeSum fun _ t => min t.source t.sink) + N.nodeSum fun v _ => c v := by
  rw [nodeSum_of_numNodes_eq h.numNodes_eq, nodeSum_add]
  apply nodeSum_congr
  intro v t ht
  rw [h.getElem?_terminals, ht]
  exact t.min_raise (c v)

/-- The differences of the weights are the same. -/
theorem map_sub_eq (h : Reparametrizes c N M) :
    (M.terminals.toList.map fun t => t.source - t.sink) =
      N.terminals.toList.map fun t => t.source - t.sink := by
  apply List.ext_getElem?
  intro v
  rw [List.getElem?_map, List.getElem?_map, Array.getElem?_toList, Array.getElem?_toList,
    h.getElem?_terminals, Option.map_map]
  refine congrArg (fun f => Option.map f _) (funext fun t => ?_)
  exact t.sub_raise (c v)

end Network.Reparametrizes

namespace Residual

variable {c : Nat → Int} {N M : Network}

/-- **The residual network at the outset** has the same excesses, and a flow that is more by the
sum of the amounts. -/
theorem outset_of_reparametrizes (h : N.Reparametrizes c M) (t : ArcTable) :
    outset M t = { outset N t with flow := (outset N t).flow + N.nodeSum fun v _ => c v } := by
  simp only [outset, h.sum_min_eq, h.map_sub_eq]

end Residual

/-- New searches of the two networks begin alike. -/
theorem Search.ofNetwork_of_reparametrizes {c : Nat → Int} {N M : Network} {m : Int}
    {r : Register} {reparent : Bool} {s s' : Search} (h : N.Reparametrizes c M)
    (hN : N.WellFormed) (hM : M.WellFormed) (hm : N.Fits m) (hm' : M.Fits m) (hr : r.Keeps m)
    (hs : ofNetwork r N reparent = .ok s) (hs' : ofNetwork r M reparent = .ok s') :
    s' = s.credit (N.nodeSum fun v _ => c v) := by
  obtain ⟨R, hR, hs⟩ := bind_eq_ok_iff.1 hs
  obtain ⟨R', hR', hs'⟩ := bind_eq_ok_iff.1 hs'
  obtain ⟨t, hbuild, -⟩ := bind_eq_ok_iff.1 hR
  have hbuild' : ArcTable.build M.numNodes M.edges = .ok t := by
    rw [h.numNodes_eq, h.edges_eq, hbuild]
  rw [Residual.ofNetwork_eq hN hm hr hbuild] at hR
  rw [Residual.ofNetwork_eq hM hm' hr hbuild', Residual.outset_of_reparametrizes h] at hR'
  obtain rfl := Except.ok.inj hR
  obtain rfl := Except.ok.inj hR'
  obtain rfl := Except.ok.inj hs
  obtain rfl := Except.ok.inj hs'
  rw [h.numNodes_eq]
  rfl

/-! ## What is told -/

/-- The event with `c` more on the flow that it tells. -/
def Event.credit (c : Int) : Event → Event
  | .found flow augmentations adoptions => .found (flow + c) augmentations adoptions
  | e => e

theorem Event.ofSearch_credit (c : Int) (s : Search) (as : List Augmentation) (s' : Search) :
    ofSearch (s.credit c) as (s'.credit c) = (ofSearch s as s').map (credit c) := by
  simp only [ofSearch, List.map_cons, List.map_append, List.map_map, List.map_nil]
  rfl

namespace Graph

variable {r : Register} {bits : Nat} {m : Int} {c : Nat → Int} {g g' : Graph r}

/-- **The two solved graphs report the same**, and have told the same of their augmentations and
counters, but the flow of the second is `c` more. -/
structure SameUpToFlow (c : Int) (x x' : Solved r) : Prop where
  flow_eq : x'.flow = x.flow + c
  events_eq : x'.events = x.events.map (Event.credit c)
  maximumFlow_eq : x'.graph.maximumFlow = x.graph.maximumFlow + c
  segment_eq : ∀ v, x'.graph.segment? v = x.graph.segment? v
  minimumCut_eq : x'.graph.minimumCut = x.graph.minimumCut
  terminalResidual_eq : ∀ v, x'.graph.terminalResidual? v = x.graph.terminalResidual? v
  edge_eq : ∀ k, x'.graph.edge? k = x.graph.edge? k

/-- **The two graphs are abreast** : the terminal weights of their networks have the same
differences, and their searches, if they have been solved, differ by the flow alone. -/
structure Abreast (m : Int) (c : Nat → Int) (g g' : Graph r) : Prop where
  valid : g.Valid m
  valid' : g'.Valid m
  fits : g.network.bare.Fits m
  fits' : g'.network.bare.Fits m
  network : g.network.Reparametrizes c g'.network
  reparent_eq : g'.config.reparent = g.config.reparent
  search_eq : g'.search = g.search.map (Search.credit (g.network.nodeSum fun v _ => c v))

namespace Abreast

/-- The next solves of the two graphs go on from searches that differ by the flow alone. -/
theorem currentSearch_eq (h : Abreast m c g g') (hr : r.Keeps m) {s₀ s₀' : Search}
    (hs : g.currentSearch = .ok s₀) (hs' : g'.currentSearch = .ok s₀') :
    s₀' = s₀.credit (g.network.nodeSum fun v _ => c v) := by
  have hsearch := h.search_eq
  simp only [currentSearch] at hs hs'
  cases hg : g.search with
  | some s =>
    rw [hg] at hs hsearch
    rw [hsearch] at hs'
    obtain rfl := Except.ok.inj hs
    exact (Except.ok.inj hs').symm
  | none =>
    rw [hg] at hs hsearch
    rw [hsearch] at hs'
    simp only [Option.map_none, bind_eq_ok_iff, liftFault_eq_ok_iff] at hs hs'
    obtain ⟨-, -, hnew⟩ := hs
    obtain ⟨-, -, hnew'⟩ := hs'
    have hp := h.valid.plain hg
    have hp' := h.valid'.plain hsearch
    have hm := h.fits
    have hm' := h.fits'
    rw [hp.bare_eq] at hm
    rw [hp'.bare_eq] at hm'
    rw [h.reparent_eq] at hnew'
    exact Search.ofNetwork_of_reparametrizes h.network hp.toWellFormed hp'.toWellFormed hm hm' hr
      hnew hnew'

/-- The flows that are recorded on the edges are the same. -/
theorem edges_eq (h : Abreast m c g g') {s₀ s s₀' : Search} {x : Int}
    {as as' : List Augmentation} {es es' : Array Edge} (hsolves : Solves g.network m s₀ s as es)
    (hsolves' : Solves g'.network m s₀' (s.credit x) as' es') : es' = es := by
  apply Array.ext_getElem?
  intro k
  rw [hsolves.getElem?_edges, hsolves'.getElem?_edges, h.network.edges_eq]
  simp only [ArcTable.along, h.network.bare.edges_eq, Search.arcs_credit]

/-- Solves that end alike report the same. -/
theorem sameUpToFlow (h : Abreast m c g g') (s₀ s : Search) (as : List Augmentation)
    (es : Array Edge) :
    SameUpToFlow (g.network.nodeSum fun v _ => c v) (g.solvedWith s₀ s as es)
      (g'.solvedWith (s₀.credit (g.network.nodeSum fun v _ => c v))
        (s.credit (g.network.nodeSum fun v _ => c v)) as es) := by
  have hnodes : g'.numNodes = g.numNodes := h.network.numNodes_eq
  have hsegment : ∀ v, (g'.solvedWith (s₀.credit (g.network.nodeSum fun v _ => c v))
      (s.credit (g.network.nodeSum fun v _ => c v)) as es).graph.segment? v =
        (g.solvedWith s₀ s as es).graph.segment? v := by
    intro v
    show (if v < g'.numNodes then _ else _) = if v < g.numNodes then _ else _
    rw [hnodes]
    rfl
  refine ⟨rfl, Event.ofSearch_credit _ _ _ _, rfl, hsegment, ?_, fun _ => rfl, fun _ => rfl⟩
  show (List.range g'.numNodes).filter _ = (List.range g.numNodes).filter _
  simp only [hnodes, hsegment]

/-- Solves that end alike leave the graphs abreast. -/
theorem solvedWith (h : Abreast m c g g') {s₀ s s₀' : Search} {as as' : List Augmentation}
    {es : Array Edge} (hsolves : Solves g.network m s₀ s as es)
    (hsolves' : Solves g'.network m s₀' (s.credit (g.network.nodeSum fun v _ => c v)) as' es) :
    Abreast m c (g.solvedWith s₀ s as es).graph
      (g'.solvedWith s₀' (s.credit (g.network.nodeSum fun v _ => c v)) as' es).graph := by
  obtain ⟨hsolved, hbare⟩ := hsolves.solvedBy h.valid.wellFormed h.fits
  obtain ⟨hsolved', hbare'⟩ := hsolves'.solvedBy h.valid'.wellFormed h.fits'
  refine ⟨⟨nofun, ?_⟩, ⟨nofun, ?_⟩, ?_, ?_, ⟨rfl, h.network.getElem?_terminals⟩,
    h.reparent_eq, rfl⟩
  · rintro _ ⟨⟩
    exact hsolved
  · rintro _ ⟨⟩
    exact hsolved'
  · exact hbare ▸ h.fits
  · exact hbare' ▸ h.fits'

/-- **One solve** succeeds on both graphs, reports the same, and leaves them abreast. -/
theorem exists_solve (hr : r.IsMachine bits) (h : Abreast (Register.limit bits) c g g') :
    ∃ x x', g.solve = .ok x ∧ g'.solve = .ok x' ∧
      SameUpToFlow (g.network.nodeSum fun v _ => c v) x x' ∧
      x.graph.network.terminals = g.network.terminals ∧
      Abreast (Register.limit bits) c x.graph x'.graph := by
  obtain ⟨s₀, s, as, es, hsolves, hok⟩ := exists_solves h.valid h.fits
  obtain ⟨s₀', s', as', es', hsolves', hok'⟩ := exists_solves h.valid' h.fits'
  have hmachine : ∀ x : Int, 0 ≤ x → x ≤ Register.limit bits → r.fits x = true :=
    fun x => Register.fits_of_mem_compared hr.mem_compared
  obtain ⟨hcurrent, hsolve⟩ := hok r hr.keeps hmachine
  obtain ⟨hcurrent', hsolve'⟩ := hok' r hr.keeps hmachine
  obtain rfl := h.currentSearch_eq hr.keeps hcurrent hcurrent'
  -- both searches are solved as they are with exact values
  have hkeeps := Register.keeps_exact (Register.limit bits)
  have hrun := hsolves'.solve_eq .exact hkeeps
  rw [Search.solve_credit, hsolves.solve_eq .exact hkeeps] at hrun
  obtain ⟨hend, haugmented⟩ := Prod.mk.inj (Except.ok.inj hrun)
  subst hend haugmented
  obtain rfl := h.edges_eq hsolves hsolves'
  exact ⟨_, _, hsolve, hsolve', h.sameUpToFlow s₀ s as es', rfl, h.solvedWith hsolves hsolves'⟩

end Abreast

/-! ## Solving again and again -/

/-- What is left of the graph after `k` solves. -/
def afterSolves (g : Graph r) (k : Nat) : Graph r :=
  (transcript call g (List.replicate k .solve)).2

theorem afterSolves_succ {x : Solved r} (h : g.solve = .ok x) (k : Nat) :
    g.afterSolves (k + 1) = x.graph.afterSolves k := by
  simp only [afterSolves, List.replicate_succ, transcript, call, h]

/-- **Only the differences of the weights matter.**  Raise or lower both terminal weights of every
node `v` by `c v`, so that the check before the first search still passes: both graphs are solved,
augment the same paths in the same order and report the same, and the two flows differ by the sum
of the amounts.  So it is with every later solve. -/
theorem solve_of_reparametrizes (hr : r.IsMachine bits) (hg : g.Built) (hg' : g'.Built)
    (hs : g.search = none) (hs' : g'.search = none)
    (hreparent : g'.config.reparent = g.config.reparent)
    (h : g.network.Reparametrizes c g'.network)
    (hcheck : checkOverflow r g.network = .ok ())
    (hcheck' : checkOverflow r g'.network = .ok ()) (k : Nat) :
    ∃ x x', (g.afterSolves k).solve = .ok x ∧ (g'.afterSolves k).solve = .ok x' ∧
      SameUpToFlow (g.network.nodeSum fun v _ => c v) x x' := by
  have hv := hg.valid hr
  have hv' := hg'.valid hr
  have habreast : Abreast (Register.limit bits) c g g' :=
    ⟨hv, hv', hv.fits_of_check hr fun _ => hcheck, hv'.fits_of_check hr fun _ => hcheck', h,
      hreparent, by rw [hs, hs']; rfl⟩
  clear * - hr habreast
  induction k generalizing g g' with
  | zero =>
    obtain ⟨x, x', hx, hx', hsame, -⟩ := habreast.exists_solve hr
    exact ⟨x, x', hx, hx', hsame⟩
  | succ k ih =>
    obtain ⟨x, x', hx, hx', -, hterminals, hnext⟩ := habreast.exists_solve hr
    rw [afterSolves_succ hx, afterSolves_succ hx']
    have hsum : (g.network.nodeSum fun v _ => c v) = x.graph.network.nodeSum fun v _ => c v := by
      unfold Network.nodeSum
      rw [hterminals]
    rw [hsum]
    exact ih hnext

/-- The bridge with other terminal weights. -/
def weightedBridge (r : Register) (w₀ w₁ : TerminalWeights) : Graph r :=
  (session r .standard
    [.edit (.addNodes 2), .edit (.setTerminalWeights 0 w₀.source w₀.sink),
      .edit (.setTerminalWeights 1 w₁.source w₁.sink), .edit (.addEdge 0 1 3 1)]).2

/-- Less goes straight through the one end of the bridge, and more through the other. -/
theorem solve_of_reparametrizes_bridge :
    ∃ x x', ((weightedBridge (.signed 8) ⟨7, 2⟩ ⟨0, 3⟩).afterSolves 0).solve = .ok x ∧
      ((weightedBridge (.signed 8) ⟨5, 0⟩ ⟨4, 7⟩).afterSolves 0).solve = .ok x' ∧
      SameUpToFlow 2 x x' := by
  have hr : (Register.signed 8).IsMachine 8 := ⟨by decide, Or.inl rfl⟩
  have hg : (weightedBridge (.signed 8) ⟨7, 2⟩ ⟨0, 3⟩).Built := ⟨_, _, by decide, rfl⟩
  have hg' : (weightedBridge (.signed 8) ⟨5, 0⟩ ⟨4, 7⟩).Built := ⟨_, _, by decide, rfl⟩
  have h : Network.Reparametrizes (fun v => if v = 0 then -2 else 4)
      (weightedBridge (.signed 8) ⟨7, 2⟩ ⟨0, 3⟩).network
      (weightedBridge (.signed 8) ⟨5, 0⟩ ⟨4, 7⟩).network := by
    refine ⟨rfl, fun v => ?_⟩
    match v with
    | 0 => rfl
    | 1 => rfl
    | v + 2 => rfl
  exact solve_of_reparametrizes hr hg hg' rfl rfl rfl h (by decide +kernel) (by decide +kernel) 0

end Graph

end MinCut
