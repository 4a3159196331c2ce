/-
# The log of a session

What an observer hears of a graph accounts for its flow.  The first solve that succeeds tells of
every path that it augments, and these add up to what the flow has gained over the flow that goes
straight through single nodes.  A later solve augments nothing, so all that it tells is once more
how the first one ended.  Apart from that, only edits that come too late are heard.

Key facts:
* `Search.Tally` : what the counters of a search say about its augmentations;
* `Logged.solve` : a solve tells what it does, and the log goes on to account for the search;
* `Logged.call` : one call, and `logged_before` : all calls, by induction on their number;
* `log_accountsForFlow` : the log of a session.
-/
import MinCut.Proofs.Histories
import MinCut.Proofs.NoFaults

namespace MinCut

/-! ## Augmentations among events -/

/-- The augmentation that an event tells of. -/
def Event.augmentation? : Event → Option Augmentation
  | .augmented a => some a
  | _ => none

/-- The augmentations that a list of events tells of. -/
def augmentationsIn (es : List Event) : List Augmentation := es.filterMap Event.augmentation?

/-- What is told of a search that has ended. -/
def Event.ending (s : Search) : Event := .found s.residual.flow s.augmentations s.adoptions

theorem augmentationsIn_append (es es' : List Event) :
    augmentationsIn (es ++ es') = augmentationsIn es ++ augmentationsIn es' :=
  List.filterMap_append

/-- A search tells of each of its augmentations. -/
theorem augmentationsIn_ofSearch (s s' : Search) (as : List Augmentation) :
    augmentationsIn (Event.ofSearch s as s') = as := by
  have hmap : (as.map Event.augmented).filterMap Event.augmentation? = as := by
    rw [List.filterMap_map]
    exact List.filterMap_some
  unfold augmentationsIn Event.ofSearch
  rw [List.filterMap_cons_none rfl, List.filterMap_append, hmap]
  exact List.append_nil as

/-! ## Counters -/

/-- **What a search has counted** since it was new: `as` are all the paths that it augmented. -/
structure Search.Tally (N : Network) (s : Search) (as : List Augmentation) : Prop where
  flow_eq : s.residual.flow =
    (N.nodeSum fun _ t => min t.source t.sink) + (as.map Augmentation.bottleneck).sum
  augmentations_eq : s.augmentations = as.length
  adoptions_le : s.adoptions ≤ N.numNodes * as.length

/-- A new search has counted nothing. -/
theorem Search.tally_new {r : Register} {N : Network} {m : Int} {reparent : Bool} {s : Search}
    (hr : r.Keeps m) (hN : N.WellFormed) (hm : N.Fits m)
    (hs : Search.ofNetwork r N reparent = .ok s) : s.Tally N [] := by
  obtain ⟨R, hR, -, hflow⟩ := Search.ofNetwork_spec hN hm
  rw [hR r hr] at hs
  obtain rfl := Except.ok.inj hs
  exact ⟨by simpa using hflow, rfl, Nat.zero_le _⟩

/-- What a search augments is counted with what it has augmented before. -/
theorem Search.Tally.trans {N : Network} {s s' : Search} {as bs : List Augmentation}
    (h : s.Tally N as) (h' : s.Accounts N s' bs) : s'.Tally N (as ++ bs) where
  flow_eq := by
    rw [h'.flow_eq, h.flow_eq, List.map_append, List.sum_append, Int.add_assoc]
  augmentations_eq := by
    rw [h'.augmentations_eq, h.augmentations_eq, List.length_append]
  adoptions_le := by
    have h₁ := h.adoptions_le
    have h₂ := h'.adoptions_le
    rw [List.length_append, Nat.mul_add]
    omega

namespace Graph

variable {r : Register} {config : Config} {cs : List Call} {j k : Nat} {c : Call} {a : Answer}
variable {g : Graph r} {past : List Event} {bits : Nat} {s : Search} {x : Solved r}

/-! ## What is heard of a solve -/

/-- **What is heard of a solve** of the graph `g` that returns `f`, where `past` was heard before:
that it begins, then each of the paths `as` that it augments, then that it has ended, with the
number of all augmentations heard so far and a number of `adoptions`. -/
structure SolveHeard (g : Graph r) (past : List Event) (f : Int) (es : List Event)
    (as : List Augmentation) (adoptions : Nat) : Prop where
  events_eq : es = .solving g.numNodes g.numEdges ::
    (as.map .augmented ++ [.found f (augmentationsIn (past ++ es)).length adoptions])
  augments : ∃ s s', g.currentSearch = .ok s ∧ s.solve r = .ok (s', as)
  bottleneck_pos : ∀ a ∈ as, 1 ≤ a.bottleneck
  flow_eq : f = (g.network.nodeSum fun _ t => min t.source t.sink) +
    ((augmentationsIn (past ++ es)).map Augmentation.bottleneck).sum
  adoptions_le : adoptions ≤ g.numNodes * (augmentationsIn (past ++ es)).length

/-- **The log of a session** accounts for the flow. -/
structure AccountsForFlow (r : Register) (config : Config) (cs : List Call) : Prop where
  solve : ∀ k f es, Exchange r config cs k .solve ⟨.capacity f, es⟩ →
    ∃ as adoptions, SolveHeard (graphBefore r config cs k) (heard r config cs k) f es as adoptions
  again : ∀ j k f f' es es', j < k → Exchange r config cs j .solve ⟨.capacity f, es⟩ →
    Exchange r config cs k .solve ⟨.capacity f', es'⟩ →
      ∃ nodes edges count adoptions, es.getLast? = some (.found f count adoptions) ∧
        es' = [.solving nodes edges, .found f count adoptions]
  failure : ∀ k e es, Exchange r config cs k .solve ⟨.refused e, es⟩ → es = []
  early : ∀ k e a, Exchange r config cs k (.edit e) a → ¬ SolvedBefore r config cs k → a.events = []
  late : ∀ k e a, Exchange r config cs k (.edit e) a → SolvedBefore r config cs k →
    a.events = [.rejectedEdit]
  question : ∀ k q a, Exchange r config cs k (.ask q) a → a.events = []

/-! ## Logs that account for a search -/

/-- **The events account for the search** that a graph keeps; before there is one, nothing is
heard. -/
structure Logged (g : Graph r) (es : List Event) : Prop where
  silent : g.search = none → es = []
  tally : ∀ s, g.search = some s → s.Tally g.network.bare (augmentationsIn es)

/-- The table of a search of the network has its nodes and edges. -/
theorem solving_eq {N : Network} (h : SearchOf r N s) (hb : s.residual.Balances N) :
    s.residual.arcs.numNodes = N.numNodes ∧ s.residual.arcs.numPairs = N.numEdges :=
  ⟨h.isLaidOut.numNodes_eq, hb.arcs.size_eq⟩

/-- **A solve tells what it does**, and the log goes on to account for the search. -/
theorem Logged.solve (hr : r.IsMachine bits) (hv : g.Valid (Register.limit bits)) (hk : g.Kept)
    (h : g.Logged past) (hx : g.solve = .ok x) :
    (∃ as adoptions, SolveHeard g past x.flow x.events as adoptions) ∧
      x.graph.Logged (past ++ x.events) := by
  have hm := hv.fits_of_solve hr hx
  obtain ⟨s₀, s, as, es, hsolves, hcurrent, rfl⟩ := hv.exists_currentSearch hr hx
  obtain ⟨-, hof⟩ := hk.currentSearch hr hv hcurrent
  -- what the search that goes on has counted was heard before
  have htally : s₀.Tally g.network.bare (augmentationsIn past) := by
    cases hs : g.search with
    | some s₁ =>
      simp only [currentSearch, hs, pure, Except.pure] at hcurrent
      obtain rfl := Except.ok.inj hcurrent
      exact h.tally _ hs
    | none =>
      simp only [currentSearch, hs, bind_eq_ok_iff, liftFault_eq_ok_iff] at hcurrent
      obtain ⟨⟨⟩, -, hnew⟩ := hcurrent
      rw [← (hv.plain hs).bare_eq] at hnew
      rw [h.silent hs]
      exact Search.tally_new hr.keeps hv.wellFormed hm hnew
  have htally' := htally.trans hsolves.accounts
  have hin : augmentationsIn (past ++ (g.solvedWith s₀ s as es).events) =
      augmentationsIn past ++ as := by
    rw [augmentationsIn_append]
    exact congrArg _ (augmentationsIn_ofSearch s₀ s as)
  rw [← hin] at htally'
  obtain ⟨hnodes, hedges⟩ := solving_eq hof hsolves.balances
  refine ⟨⟨as, s.adoptions, ?_, ⟨s₀, s, hcurrent, hsolves.solve_eq r hr.keeps⟩,
    hsolves.accounts.bottleneck_pos, htally'.flow_eq, htally'.adoptions_le⟩, ?_, ?_⟩
  · rw [← htally'.augmentations_eq]
    show Event.ofSearch s₀ as s = _
    rw [Event.ofSearch, hnodes, hedges, Network.numEdges, Network.bare, Array.size_map]
    rfl
  · intro hnone
    cases hnone
  · intro s' hs'
    obtain rfl : s = s' := Option.some.inj hs'
    have hbare := (hsolves.solvedBy hv.wellFormed hm).2
    show s.Tally ({ g.network with edges := es } : Network).bare _
    rw [hbare]
    exact htally'

/-- **One call**: what is heard of it goes on to account for the search. -/
theorem Logged.call (hr : r.IsMachine bits) (hv : g.Valid (Register.limit bits)) (hk : g.Kept)
    (h : g.Logged past) (c : Call) : (g.call c).2.Logged (past ++ (g.call c).1.events) := by
  cases c with
  | edit e =>
    rw [events_of_edit]
    cases he : g.edit e with
    | error err =>
      simp only [Graph.call, he]
      refine ⟨fun hs => ?_, fun s hs => ?_⟩
      · simp [hs, h.silent hs]
      · -- to hear that an edit comes too late is not to hear of an augmentation
        have hin : augmentationsIn (past ++ [.rejectedEdit]) = augmentationsIn past := by
          rw [augmentationsIn_append]
          exact List.append_nil _
        rw [hs, Option.isSome_some, if_pos rfl, hin]
        exact h.tally s hs
    | ok p =>
      obtain ⟨reply, g'⟩ := p
      obtain ⟨hs, hs'⟩ := search_of_edit he
      simp only [Graph.call, he, hs]
      refine ⟨fun _ => by simp [h.silent hs], ?_⟩
      intro s hsome
      rw [hs'] at hsome
      cases hsome
  | solve =>
    cases hx : g.solve with
    | error err => simpa only [Graph.call, hx, List.append_nil] using h
    | ok x => simpa only [Graph.call, hx] using (h.solve hr hv hk hx).2
  | ask q => simpa only [Graph.call, List.append_nil] using h

/-- **Before every call** what was heard accounts for the search that the graph keeps. -/
theorem logged_before (hr : r.IsMachine bits) (hfits : ∀ c ∈ cs, Call.fits r c = true)
    (config : Config) (k : Nat) : (graphBefore r config cs k).Logged (heard r config cs k) := by
  induction k with
  | zero => exact ⟨fun _ => rfl, fun s hs => nomatch hs⟩
  | succ k ih =>
    cases hc : cs[k]? with
    | none =>
      rw [graphBefore_succ_of_none hc, heard_succ_of_none hc]
      exact ih
    | some c =>
      rw [graphBefore_succ hc, heard_succ (exchange_of_call hc)]
      exact ih.call hr (graphBefore_valid hr hfits config k)
        ((graphBefore_built hfits config k).kept hr) c

/-! ## Solves of a solved graph -/

/-- A call to a solved graph leaves all of its search but the forest. -/
theorem ending_call (hr : r.IsMachine bits) (hv : g.Valid (Register.limit bits))
    (hs : g.search = some s) (c : Call) :
    ∃ s', (g.call c).2.search = some s' ∧ Event.ending s' = Event.ending s := by
  cases c with
  | edit e => exact ⟨s, by simp only [call, edit_of_solved hs, hs], rfl⟩
  | ask q => exact ⟨s, hs, rfl⟩
  | solve =>
    obtain ⟨f, hx, -⟩ := exists_solve_of_solved hr hv hs
    exact ⟨{ s with forest := f }, by simp only [call, hx, solvedWith], rfl⟩

/-- Any number of calls to a solved graph. -/
theorem ending_calls (hr : r.IsMachine bits) (hfits : ∀ c ∈ cs, Call.fits r c = true)
    (hjk : j ≤ k) (hs : (graphBefore r config cs j).search = some s) :
    ∃ s', (graphBefore r config cs k).search = some s' ∧ Event.ending s' = Event.ending s := by
  induction k, hjk using Nat.le_induction with
  | base => exact ⟨s, hs, rfl⟩
  | succ k _ ih =>
    obtain ⟨s₁, hs₁, hending⟩ := ih
    cases hc : cs[k]? with
    | none => exact ⟨s₁, by rw [graphBefore_succ_of_none hc, hs₁], hending⟩
    | some c =>
      obtain ⟨s', hs', hending'⟩ := ending_call hr (graphBefore_valid hr hfits config k) hs₁ c
      exact ⟨s', by rw [graphBefore_succ hc, hs'], hending'.trans hending⟩

/-! ## The log of a session -/

/-- A solve that succeeds, from its answer. -/
theorem Exchange.exists_solve {f : Int} {es : List Event}
    (h : Exchange r config cs k .solve ⟨.capacity f, es⟩) :
    ∃ x, (graphBefore r config cs k).solve = .ok x ∧ x.flow = f ∧ x.events = es ∧
      graphBefore r config cs (k + 1) = x.graph := by
  have hanswer := h.answer
  rw [graphBefore_succ h.call_eq]
  cases hx : (graphBefore r config cs k).solve with
  | error err => simp [Graph.call, hx] at hanswer
  | ok x =>
    simp only [Graph.call, hx, Answer.mk.injEq, Reply.capacity.injEq] at hanswer
    exact ⟨x, rfl, hanswer.1, hanswer.2, by simp only [Graph.call, hx]⟩

/-- **The log of every session accounts for the flow.** -/
theorem log_accountsForFlow (hr : r.IsMachine bits) (hfits : ∀ c ∈ cs, Call.fits r c = true)
    (config : Config) : AccountsForFlow r config cs where
  solve k f es h := by
    obtain ⟨x, hx, rfl, rfl, -⟩ := h.exists_solve
    exact ((logged_before hr hfits config k).solve hr (graphBefore_valid hr hfits config k)
      ((graphBefore_built hfits config k).kept hr) hx).1
  again j k f f' es es' hjk h h' := by
    obtain ⟨x, hx, rfl, rfl, hnext⟩ := h.exists_solve
    obtain ⟨s₀, s, as, edges, hsolves, rfl⟩ :=
      (graphBefore_valid hr hfits config j).exists_solves hr hx
    obtain ⟨s', hs', hending⟩ := ending_calls (s := s) hr hfits hjk (by rw [hnext]; rfl)
    obtain ⟨forest, hx', -⟩ :=
      exists_solve_of_solved hr (graphBefore_valid hr hfits config k) hs'
    obtain ⟨x', hx'', -, rfl, -⟩ := h'.exists_solve
    obtain rfl := Except.ok.inj (hx'.symm.trans hx'')
    refine ⟨s'.residual.arcs.numNodes, s'.residual.arcs.numPairs, s.augmentations, s.adoptions, ?_,
      ?_⟩
    · show ((Event.solving _ _ :: as.map Event.augmented) ++ [Event.ending s]).getLast? =
        some (Event.ending s)
      exact List.getLast?_concat
    · show [Event.solving _ _, Event.ending s'] = [_, Event.ending s]
      rw [hending]
  failure k e es h := by
    have hanswer := h.answer
    cases hx : (graphBefore r config cs k).solve with
    | error err =>
      simp only [Graph.call, hx, Answer.mk.injEq] at hanswer
      exact hanswer.2.symm
    | ok x => simp [Graph.call, hx] at hanswer
  early k e a h hnot := by
    rw [solvedBefore_iff] at hnot
    rw [← h.answer, events_of_edit, if_neg hnot]
  late k e a h hsolved := by
    rw [solvedBefore_iff] at hsolved
    rw [← h.answer, events_of_edit, if_pos hsolved]
  question k q a h := by
    rw [← h.answer]
    rfl

/-- The bridge, solved twice with an edit in between that comes too late. -/
theorem log_accountsForFlow_bridge :
    AccountsForFlow (.signed 8) .standard
        [.edit (.addNodes 2), .edit (.setTerminalWeights 0 5 0), .edit (.setTerminalWeights 1 0 3),
          .edit (.addEdge 0 1 3 1), .solve, .edit .addNode, .solve] ∧
      heard (.signed 8) .standard
        [.edit (.addNodes 2), .edit (.setTerminalWeights 0 5 0), .edit (.setTerminalWeights 1 0 3),
          .edit (.addEdge 0 1 3 1), .solve, .edit .addNode, .solve] 7 =
        [.solving 2 1, .augmented ⟨3, 0, 1⟩, .found 3 1 1, .rejectedEdit, .solving 2 1,
          .found 3 1 1] :=
  ⟨log_accountsForFlow ⟨by decide, Or.inl rfl⟩ (by decide) .standard, by decide +kernel⟩

end Graph

end MinCut
