/-
# Graphs that calls lead to

Until a graph is solved its network is plain: well-formed, with weights that fit the register
and with no flow recorded.  Once solved, a graph keeps a complete search of its network and
the flows that the search found, and no later call but another solve touches either.

Key facts:
* `edit_plain` : an edit leaves a plain network;
* `exists_solves` : a network with room is solved, in the same way in every register with room;
* `Built.valid` : every graph that calls lead to is plain or solved, by induction on the calls.
-/
import MinCut.Graph.Calls
import MinCut.Proofs.Optimality
import MinCut.Proofs.OverflowCheck
import MinCut.Proofs.Recording

namespace MinCut

/-! ## Plain networks -/

/-- **The network of a graph that is not solved** : well-formed, with weights up to `m` and
nothing recorded. -/
structure Network.Plain (N : Network) (m : Int) : Prop extends N.WellFormed where
  source_le : ∀ t ∈ N.terminals, t.source ≤ m
  sink_le : ∀ t ∈ N.terminals, t.sink ≤ m
  idle : ∀ e ∈ N.edges, e.flow = 0

namespace Network

variable {N : Network} {m : Int}

/-- Recording no flow changes nothing where none is recorded. -/
theorem Plain.bare_eq (h : N.Plain m) : N.bare = N := by
  have hedges : N.edges.map Edge.bare = N.edges := by
    apply Array.ext_getElem?
    intro k
    rw [Array.getElem?_map]
    cases he : N.edges[k]? with
    | none => rfl
    | some e =>
      have hflow := h.idle e (Array.mem_of_getElem? he)
      obtain ⟨tail, head, flow, capacity, reverseCapacity⟩ := e
      simp only at hflow
      subst hflow
      rfl
  unfold bare
  rw [hedges]

/-- More nodes, or other weights, that fit as well. -/
theorem Plain.withTerminals (h : N.Plain m) {ts : Array TerminalWeights}
    (hsize : N.terminals.size ≤ ts.size)
    (hts : ∀ t ∈ ts, 0 ≤ t.source ∧ t.source ≤ m ∧ 0 ≤ t.sink ∧ t.sink ≤ m) :
    ({ N with terminals := ts } : Network).Plain m where
  tail_lt e he := Nat.lt_of_lt_of_le (h.tail_lt e he) hsize
  head_lt e he := Nat.lt_of_lt_of_le (h.head_lt e he) hsize
  capacity_nonneg := h.capacity_nonneg
  reverseCapacity_nonneg := h.reverseCapacity_nonneg
  source_nonneg t ht := (hts t ht).1
  sink_nonneg t ht := (hts t ht).2.2.1
  source_le t ht := (hts t ht).2.1
  sink_le t ht := (hts t ht).2.2.2
  idle := h.idle

/-- The weights of a plain network. -/
theorem Plain.weights (h : N.Plain m) {t : TerminalWeights} (ht : t ∈ N.terminals) :
    0 ≤ t.source ∧ t.source ≤ m ∧ 0 ≤ t.sink ∧ t.sink ≤ m :=
  ⟨h.source_nonneg t ht, h.source_le t ht, h.sink_nonneg t ht, h.sink_le t ht⟩

/-- Other weights for one node. -/
theorem Plain.setWeights (h : N.Plain m) (v : Nat) {w : TerminalWeights}
    (hw : 0 ≤ w.source ∧ w.source ≤ m ∧ 0 ≤ w.sink ∧ w.sink ≤ m) :
    ({ N with terminals := N.terminals.setIfInBounds v w } : Network).Plain m := by
  refine h.withTerminals (by simp) fun t ht => ?_
  rcases Array.mem_or_eq_of_mem_setIfInBounds ht with ht | rfl
  · exact h.weights ht
  · exact hw

/-- One more edge between two nodes. -/
theorem Plain.push (h : N.Plain m) {u v : Nat} {x y : Int} (hu : u < N.numNodes)
    (hv : v < N.numNodes) (hx : 0 ≤ x) (hy : 0 ≤ y) :
    ({ N with edges := N.edges.push (.idle u v x y) } : Network).Plain m := by
  have hcases : ∀ {e}, e ∈ N.edges.push (.idle u v x y) → e ∈ N.edges ∨ e = .idle u v x y :=
    fun he => Array.mem_push.1 he
  refine ⟨⟨?_, ?_, ?_, ?_, h.source_nonneg, h.sink_nonneg⟩, h.source_le, h.sink_le, ?_⟩
  · intro e he
    rcases hcases he with he | rfl
    · exact h.tail_lt e he
    · exact hu
  · intro e he
    rcases hcases he with he | rfl
    · exact h.head_lt e he
    · exact hv
  · intro e he
    rcases hcases he with he | rfl
    · exact h.capacity_nonneg e he
    · exact hx
  · intro e he
    rcases hcases he with he | rfl
    · exact h.reverseCapacity_nonneg e he
    · exact hy
  · intro e he
    rcases hcases he with he | rfl
    · exact h.idle e he
    · rfl

end Network

namespace Graph

variable {r : Register} {g g' : Graph r} {m : Int} {bits : Nat}

/-! ## Edits -/

theorem checkEditable_eq_ok (h : g.checkEditable = .ok ()) : g.search = none := by
  unfold checkEditable at h
  cases hs : g.search with
  | none => rfl
  | some s =>
    rw [hs] at h
    cases h

theorem checkNode_eq_ok {v : Nat} (h : g.checkNode v = .ok ()) : v < g.network.numNodes := by
  unfold checkNode at h
  split at h
  · assumption
  · cases h

theorem checkCapacities_eq_ok {x y : Int} (h : checkCapacities x y = .ok ()) : 0 ≤ x ∧ 0 ≤ y := by
  unfold checkCapacities at h
  split at h
  · cases h
  · omega

theorem addCapacities_eq_ok (hle : ∀ x, r.fits x = true → x ≤ m) {x y z : Int}
    (h : addCapacities r x y = .ok z) : z = x + y ∧ z ≤ m := by
  unfold addCapacities at h
  split at h
  · rename_i w hw
    obtain rfl : w = z := by simpa using h
    obtain ⟨hfit, heq⟩ := Register.checkedAdd_eq_some_iff.1 hw
    exact ⟨heq, heq ▸ hle _ hfit⟩
  · cases h

/-- **An edit that is made** leaves a plain network, and a graph that is not solved. -/
theorem edit_plain (hle : ∀ x, r.fits x = true → x ≤ m) (hm : 0 ≤ m) {e : Edit}
    {reply : Reply} (hfits : e.fits r = true) (hg : g.search = none → g.network.Plain m)
    (h : g.edit e = .ok (reply, g')) : g'.search = none ∧ g'.network.Plain m := by
  have hzero : ∀ t : TerminalWeights, t = .zero →
      0 ≤ t.source ∧ t.source ≤ m ∧ 0 ≤ t.sink ∧ t.sink ≤ m := by
    rintro t rfl
    exact ⟨Int.le_refl 0, hm, Int.le_refl 0, hm⟩
  cases e with
  | addNode =>
    simp only [edit, addNode, bind_eq_ok_iff, pure, Except.pure, Except.ok.injEq,
      Prod.mk.injEq] at h
    obtain ⟨-, ⟨⟨⟩, hedit, rfl⟩, -, rfl⟩ := h
    have hs := checkEditable_eq_ok hedit
    refine ⟨hs, (hg hs).withTerminals (by simp) fun t ht => ?_⟩
    rcases Array.mem_push.1 ht with ht | ht
    · exact (hg hs).weights ht
    · exact hzero t ht
  | addNodes n =>
    simp only [edit, addNodes, bind_eq_ok_iff, pure, Except.pure, Except.ok.injEq,
      Prod.mk.injEq] at h
    obtain ⟨-, ⟨⟨⟩, hedit, rfl⟩, -, rfl⟩ := h
    have hs := checkEditable_eq_ok hedit
    refine ⟨hs, (hg hs).withTerminals (by simp) fun t ht => ?_⟩
    rcases Array.mem_append.1 ht with ht | ht
    · exact (hg hs).weights ht
    · exact hzero t (Array.mem_replicate.1 ht).2
  | addEdge u v x y =>
    simp only [edit, addEdge, bind_eq_ok_iff, pure, Except.pure, Except.ok.injEq,
      Prod.mk.injEq] at h
    obtain ⟨-, ⟨⟨⟩, hedit, ⟨⟩, hu, ⟨⟩, hv, ⟨⟩, hxy, rfl⟩, -, rfl⟩ := h
    have hs := checkEditable_eq_ok hedit
    obtain ⟨hx, hy⟩ := checkCapacities_eq_ok hxy
    exact ⟨hs, (hg hs).push (checkNode_eq_ok hu) (checkNode_eq_ok hv) hx hy⟩
  | setTerminalWeights v x y =>
    simp only [edit, setTerminalWeights, bind_eq_ok_iff, pure, Except.pure, Except.ok.injEq,
      Prod.mk.injEq] at h
    obtain ⟨-, ⟨⟨⟩, hedit, ⟨⟩, hv, ⟨⟩, hxy, rfl⟩, -, rfl⟩ := h
    have hs := checkEditable_eq_ok hedit
    obtain ⟨hx, hy⟩ := checkCapacities_eq_ok hxy
    rw [Edit.fits, Bool.and_eq_true] at hfits
    exact ⟨hs, (hg hs).setWeights v ⟨hx, hle x hfits.1, hy, hle y hfits.2⟩⟩
  | addTerminalWeights v x y =>
    simp only [edit, addTerminalWeights, bind_eq_ok_iff, pure, Except.pure, Except.ok.injEq,
      Prod.mk.injEq] at h
    obtain ⟨-, ⟨⟨⟩, hedit, ⟨⟩, hv, ⟨⟩, hxy, x', hx', y', hy', rfl⟩, -, rfl⟩ := h
    have hs := checkEditable_eq_ok hedit
    obtain ⟨hx, hy⟩ := checkCapacities_eq_ok hxy
    have hv' : v < g.network.terminals.size := checkNode_eq_ok hv
    have hold := (hg hs).weights (Array.getElem_mem hv')
    have hweights : g.terminalWeights v = g.network.terminals[v] := by
      simp [terminalWeights, hv']
    obtain ⟨hx₁, hx₂⟩ := addCapacities_eq_ok hle hx'
    obtain ⟨hy₁, hy₂⟩ := addCapacities_eq_ok hle hy'
    rw [hweights] at hx₁ hy₁
    exact ⟨hs, (hg hs).setWeights v ⟨by show 0 ≤ x'; omega, hx₂, by show 0 ≤ y'; omega, hy₂⟩⟩

/-! ## Solves -/

/-- The search `s` has solved the network, and its flow is recorded. -/
structure SolvedBy (N : Network) (m : Int) (s : Search) : Prop where
  wellFormed : N.bare.WellFormed
  fits : N.bare.Fits m
  complete : s.Complete N.bare
  recorded : ∀ (k : Nat) (e : Edge), N.edges[k]? = some e →
    e.flow = s.residual.arcs.along N.bare k

/-- **What holds of a graph** between calls. -/
structure Valid (g : Graph r) (m : Int) : Prop where
  plain : g.search = none → g.network.Plain m
  solved : ∀ s, g.search = some s → SolvedBy g.network m s

/-- A solve of the network that begins with `s₀`, augments `as`, ends with `s` and records the
edges `es`, in every register with room. -/
structure Solves (N : Network) (m : Int) (s₀ s : Search) (as : List Augmentation)
    (es : Array Edge) : Prop where
  balances : s₀.residual.Balances N.bare
  solve_eq : ∀ r : Register, r.Keeps m → s₀.solve r = .ok (s, as)
  complete : s.Complete N.bare
  accounts : s₀.Accounts N.bare s as
  flowsOn_eq : ∀ r : Register, r.Keeps m → s.residual.arcs.flowsOn r N.edges = .ok es
  getElem?_edges : ∀ k : Nat,
    es[k]? = N.edges[k]?.map (Edge.record (s.residual.arcs.along N.bare k))
  bare_eq : es.map Edge.bare = N.edges.map Edge.bare

/-- The network of a graph is well-formed, flows or not. -/
theorem Valid.wellFormed (h : g.Valid m) : g.network.bare.WellFormed := by
  cases hs : g.search with
  | none =>
    have hp := h.plain hs
    rw [hp.bare_eq]
    exact hp.toWellFormed
  | some s => exact (h.solved s hs).wellFormed

/-- The graph with its capacities in another register. -/
def inRegister (g : Graph r) (r' : Register) : Graph r' := ⟨g.network, g.config, g.search⟩

/-- The solved graph with its capacities in another register. -/
def Solved.inRegister (s : Solved r) (r' : Register) : Solved r' :=
  ⟨s.flow, s.events, s.graph.inRegister r'⟩

/-- What a solve makes of a graph. -/
def solvedWith (g : Graph r) (s₀ s : Search) (as : List Augmentation) (es : Array Edge) :
    Solved r where
  flow := s.residual.flow
  events := Event.ofSearch s₀ as s
  graph := { g with network := { g.network with edges := es }, search := some s }

/-- A solve goes on with the search that is kept, or starts a new one, in every register with
room; either way the residual network is balanced. -/
theorem exists_currentSearch (h : g.Valid m) (hm : g.network.bare.Fits m) :
    ∃ s₀ : Search, s₀.residual.Balances g.network.bare ∧
      ∀ r' : Register, r'.Keeps m → (∀ x, 0 ≤ x → x ≤ m → r'.fits x = true) →
        (g.inRegister r').currentSearch = .ok s₀ := by
  have hN := h.wellFormed
  cases hs : g.search with
  | some s₀ =>
    refine ⟨s₀, (h.solved s₀ hs).complete.balances, ?_⟩
    intro r' _ _
    simp only [currentSearch, inRegister, hs, pure, Except.pure]
  | none =>
    -- no flow is recorded, so the network searched is the one the accounts are about
    have hbare := (h.plain hs).bare_eq
    rw [hbare] at hN hm
    obtain ⟨R, hR, hbal, -⟩ := Search.ofNetwork_spec hN hm
    refine ⟨⟨R, .unsearched g.network.numNodes, g.config.reparent, 0, 0⟩, ?_, ?_⟩
    · rw [hbare]
      exact hbal
    · intro r' hr' hfit
      have hcheck := checkOverflow_of_fits hfit hN hm
      simp only [currentSearch, inRegister, hs, hcheck, hR r' hr', liftFault, bind, Except.bind]

/-- **A graph whose network fits can be solved**, and it is solved in the same way in every
register with room. -/
theorem exists_solves (h : g.Valid m) (hm : g.network.bare.Fits m) :
    ∃ s₀ s as es, Solves g.network m s₀ s as es ∧
      ∀ r' : Register, r'.Keeps m → (∀ x, 0 ≤ x → x ≤ m → r'.fits x = true) →
        (g.inRegister r').currentSearch = .ok s₀ ∧
          (g.inRegister r').solve = .ok ((g.solvedWith s₀ s as es).inRegister r') := by
  have hN := h.wellFormed
  obtain ⟨s₀, hb, hcurrent⟩ := exists_currentSearch h hm
  obtain ⟨s, as, hsolve, hcomplete, hacc⟩ := Search.solve_spec hN hm hb
  obtain ⟨es, hflows, hget, hbare⟩ := ArcTable.flowsOn_spec hN hm hcomplete.balances.arcs
  refine ⟨s₀, s, as, es, ⟨hb, hsolve, hcomplete, hacc, hflows, hget, hbare⟩, ?_⟩
  intro r' hr' hfit
  refine ⟨hcurrent r' hr' hfit, ?_⟩
  have hedges : (g.inRegister r').network.edges = g.network.edges := rfl
  simp only [solve, hcurrent r' hr' hfit, hsolve r' hr', hedges, hflows r' hr', liftFault, bind,
    Except.bind, pure, Except.pure]
  rfl

/-- The network that a solve leaves is solved. -/
theorem Solves.solvedBy {N : Network} {s₀ s : Search} {as : List Augmentation} {es : Array Edge}
    (h : Solves N m s₀ s as es) (hN : N.bare.WellFormed) (hm : N.bare.Fits m) :
    SolvedBy { N with edges := es } m s ∧ ({ N with edges := es } : Network).bare = N.bare := by
  have hbare : ({ N with edges := es } : Network).bare = N.bare := by
    unfold Network.bare
    rw [h.bare_eq]
  refine ⟨⟨?_, ?_, ?_, ?_⟩, hbare⟩
  · rw [hbare]
    exact hN
  · rw [hbare]
    exact hm
  · rw [hbare]
    exact h.complete
  · intro k e he
    rw [hbare]
    rw [h.getElem?_edges] at he
    obtain ⟨e', -, rfl⟩ := Option.map_eq_some_iff.1 he
    rfl

/-- If the check before the first search passes, the capacities leave room. -/
theorem Valid.fits_of_check (hr : r.IsMachine bits) (h : g.Valid (Register.limit bits))
    (hc : g.search = none → checkOverflow r g.network = .ok ()) :
    g.network.bare.Fits (Register.limit bits) := by
  cases hs : g.search with
  | some s => exact (h.solved s hs).fits
  | none =>
    have hp := h.plain hs
    rw [hp.bare_eq]
    exact fits_of_checkOverflow (fun _ => hr.le_limit) (Register.limit_nonneg bits)
      (fun t ht => ⟨hp.source_le t ht, hp.sink_le t ht⟩) (hc hs)

/-- A solve succeeds only if the capacities leave room. -/
theorem Valid.fits_of_solve (hr : r.IsMachine bits) (h : g.Valid (Register.limit bits))
    {x : Solved r} (hx : g.solve = .ok x) : g.network.bare.Fits (Register.limit bits) := by
  obtain ⟨s₀, hcurrent, -⟩ := bind_eq_ok_iff.1 hx
  apply h.fits_of_check hr
  intro hs
  simp only [currentSearch, hs, bind_eq_ok_iff] at hcurrent
  obtain ⟨⟨⟩, hcheck, -⟩ := hcurrent
  exact hcheck

/-- **A solve that succeeds** is the solve of a search that begins balanced, the one that the graph
goes on with. -/
theorem Valid.exists_currentSearch (hr : r.IsMachine bits) (h : g.Valid (Register.limit bits))
    {x : Solved r} (hx : g.solve = .ok x) :
    ∃ s₀ s as es, Solves g.network (Register.limit bits) s₀ s as es ∧
      g.currentSearch = .ok s₀ ∧ x = g.solvedWith s₀ s as es := by
  obtain ⟨s₀, s, as, es, hsolves, hok⟩ := Graph.exists_solves h (h.fits_of_solve hr hx)
  -- the register of the graph is one of those compared
  obtain ⟨hcurrent, hsolve⟩ :=
    hok r hr.keeps fun x => Register.fits_of_mem_compared hr.mem_compared
  have hsame : g.solve = .ok (g.solvedWith s₀ s as es) := hsolve
  rw [hx] at hsame
  exact ⟨s₀, s, as, es, hsolves, hcurrent, Except.ok.inj hsame⟩

theorem Valid.exists_solves (hr : r.IsMachine bits) (h : g.Valid (Register.limit bits))
    {x : Solved r} (hx : g.solve = .ok x) :
    ∃ s₀ s as es, Solves g.network (Register.limit bits) s₀ s as es ∧
      x = g.solvedWith s₀ s as es := by
  obtain ⟨s₀, s, as, es, hsolves, -, hx⟩ := h.exists_currentSearch hr hx
  exact ⟨s₀, s, as, es, hsolves, hx⟩

/-- A solve leaves a solved network. -/
theorem Valid.solve (hr : r.IsMachine bits) (h : g.Valid (Register.limit bits)) {x : Solved r}
    (hx : g.solve = .ok x) : x.graph.Valid (Register.limit bits) := by
  obtain ⟨s₀, s, as, es, hsolves, rfl⟩ := h.exists_solves hr hx
  refine ⟨fun hnone => (nomatch hnone), ?_⟩
  intro s' hs'
  obtain rfl : s = s' := Option.some.inj hs'
  exact (hsolves.solvedBy h.wellFormed (h.fits_of_solve hr hx)).1

/-! ## Calls -/

/-- **Every call** leaves a graph that is plain or solved. -/
theorem Valid.call (hr : r.IsMachine bits) (h : g.Valid (Register.limit bits)) {c : Call}
    (hc : c.fits r = true) : (g.call c).2.Valid (Register.limit bits) := by
  cases c with
  | edit e =>
    cases he : g.edit e with
    | error err => simpa only [Graph.call, he] using h
    | ok x =>
      obtain ⟨reply, g'⟩ := x
      simp only [Graph.call, he]
      obtain ⟨hs, hp⟩ :=
        edit_plain (fun _ => hr.le_limit) (Register.limit_nonneg bits) hc h.plain he
      refine ⟨fun _ => hp, ?_⟩
      intro s hs'
      rw [hs] at hs'
      cases hs'
  | solve =>
    cases hx : g.solve with
    | error err => simpa only [Graph.call, hx] using h
    | ok x =>
      simp only [Graph.call, hx]
      exact h.solve hr hx
  | ask q => exact h

/-- The graph without nodes is plain. -/
theorem empty_valid (config : Config) : (empty r config).Valid m where
  plain _ :=
    { tail_lt := by simp [empty]
      head_lt := by simp [empty]
      capacity_nonneg := by simp [empty]
      reverseCapacity_nonneg := by simp [empty]
      source_nonneg := by simp [empty]
      sink_nonneg := by simp [empty]
      source_le := by simp [empty]
      sink_le := by simp [empty]
      idle := by simp [empty] }
  solved _ hs := nomatch hs

/-- The graph is what a list of calls has made of a graph without nodes, where the capacities
given are values of the register. -/
def Built (g : Graph r) : Prop :=
  ∃ config cs, (∀ c ∈ cs, Call.fits r c = true) ∧ (session r config cs).2 = g

/-- Calls one after the other leave a graph that is plain or solved. -/
theorem Valid.calls (hr : r.IsMachine bits) {cs : List Call}
    (hfits : ∀ c ∈ cs, Call.fits r c = true) (h : g.Valid (Register.limit bits)) :
    (transcript Graph.call g cs).2.Valid (Register.limit bits) := by
  induction cs generalizing g with
  | nil => exact h
  | cons c cs ih =>
    have hc := hfits c List.mem_cons_self
    have hcs : ∀ d ∈ cs, Call.fits r d = true := fun d hd => hfits d (List.mem_cons_of_mem c hd)
    exact ih hcs (h.call hr hc)

/-- **Every graph that calls lead to** is plain or solved. -/
theorem Built.valid (hr : r.IsMachine bits) (hg : g.Built) :
    g.Valid (Register.limit bits) := by
  obtain ⟨config, cs, hfits, rfl⟩ := hg
  exact (empty_valid config).calls hr hfits

/-! ## A bridge -/

/-- Two nodes joined by an edge that is narrower than what the source can send: the cuts before
and behind the edge are both minimum cuts. -/
def bridge (r : Register) : Graph r :=
  (session r .standard
    [.edit (.addNodes 2), .edit (.setTerminalWeights 0 5 0), .edit (.setTerminalWeights 1 0 3),
      .edit (.addEdge 0 1 3 1)]).2

theorem bridge_built : (bridge (.signed 8)).Built := ⟨_, _, by decide, rfl⟩

theorem exists_solve_bridge :
    ∃ x, (bridge (.signed 8)).solve = .ok x ∧ x.flow = 3 ∧ x.graph.minimumCut = [0] := by
  have hsolve : (bridge (.signed 8)).solve.map (fun x => (x.flow, x.graph.minimumCut)) =
      .ok (3, [0]) := by decide +kernel
  obtain ⟨x, hx, heval⟩ := map_eq_ok_iff.1 hsolve
  obtain ⟨hflow, hcut⟩ := Prod.mk.inj heval
  exact ⟨x, hx, hflow, hcut⟩

end Graph

end MinCut
