/-
# No call fails from inside

The solves of an admissible network meet no fault.  A graph lets no other network be searched: the
check before its first search admits it, and what it keeps of a search is a search of the same
network.  Edits only refuse what was asked for.  Hence no call to a graph is refused because of a
fault, and only one call must not be made at all.

Key facts:
* `Kept.call` : what a graph keeps of its searches, call by call;
* `Valid.check_of_refused_solve` : why a solve is refused;
* `call_aborted_iff` : the call that must not be made;
* `built_neverFails` : every call to a graph.
-/
import MinCut.Graph.Query
import MinCut.Proofs.Edits
import MinCut.Proofs.SolvesInPlace

namespace MinCut

namespace Graph

variable {r : Register} {g : Graph r} {m : Int} {bits : Nat} {s : Search} {e : GraphError}

/-! ## What a graph keeps of its searches -/

/-- The search that solved the graph, if there is one, is a search of its network, which passed the
check before its first search. -/
def Kept (g : Graph r) : Prop :=
  ∀ s, g.search = some s → g.network.bare.Admissible r ∧ SearchOf r g.network.bare s

/-- The network of a graph that passes the check is admissible. -/
theorem Valid.admissible (hr : r.IsMachine bits) (h : g.Valid (Register.limit bits))
    (hs : g.search = none) (hc : checkOverflow r g.network = .ok ()) :
    g.network.Admissible r := by
  have hp := h.plain hs
  refine ⟨hp.toWellFormed, ?_, ?_, hc⟩
  · intro t ht
    exact Register.fits_of_mem_compared hr.mem_compared (hp.source_nonneg t ht) (hp.source_le t ht)
  · intro t ht
    exact Register.fits_of_mem_compared hr.mem_compared (hp.sink_nonneg t ht) (hp.sink_le t ht)

/-- **The search that a solve goes on with** is one of the network of the graph. -/
theorem Kept.currentSearch (hr : r.IsMachine bits) (hv : g.Valid (Register.limit bits))
    (h : g.Kept) (hs : g.currentSearch = .ok s) :
    g.network.bare.Admissible r ∧ SearchOf r g.network.bare s := by
  unfold Graph.currentSearch at hs
  cases hsearch : g.search with
  | some s₀ =>
    rw [hsearch] at hs
    obtain rfl : s₀ = s := Except.ok.inj hs
    exact h s₀ hsearch
  | none =>
    rw [hsearch] at hs
    obtain ⟨⟨⟩, hcheck, hs⟩ := bind_eq_ok_iff.1 hs
    rw [(hv.plain hsearch).bare_eq]
    exact ⟨hv.admissible hr hsearch hcheck, .new (liftFault_eq_ok_iff.1 hs)⟩

/-- A solve goes on with a search of the network, and keeps what it makes of it. -/
theorem Kept.solve (hr : r.IsMachine bits) (hv : g.Valid (Register.limit bits)) (h : g.Kept)
    {x : Solved r} (hx : g.solve = .ok x) : x.graph.Kept := by
  have hm := hv.fits_of_solve hr hx
  obtain ⟨s₀, s, as, es, hsolves, hcurrent, rfl⟩ := hv.exists_currentSearch hr hx
  obtain ⟨hadmissible, hof⟩ := h.currentSearch hr hv hcurrent
  intro s' hs'
  obtain rfl : s = s' := Option.some.inj hs'
  have hbare : (g.solvedWith s₀ s as es).graph.network.bare = g.network.bare :=
    (hsolves.solvedBy hv.wellFormed hm).2
  rw [hbare]
  exact ⟨hadmissible, hof.solved (hsolves.solve_eq r hr.keeps)⟩

/-- **Every call** keeps a search of the network, if one is kept at all. -/
theorem Kept.call (hr : r.IsMachine bits) (hv : g.Valid (Register.limit bits)) (h : g.Kept)
    {c : Call} (hc : c.fits r = true) : (g.call c).2.Kept := by
  cases c with
  | edit e =>
    cases he : g.edit e with
    | error err => simpa only [Graph.call, he] using h
    | ok x =>
      obtain ⟨reply, g'⟩ := x
      simp only [Graph.call, he]
      -- an edit that is made leaves a graph that is not solved
      obtain ⟨hs, -⟩ :=
        edit_plain (fun _ => hr.le_limit) (Register.limit_nonneg bits) hc hv.plain he
      intro s hs'
      rw [hs] at hs'
      cases hs'
  | solve =>
    cases hx : g.solve with
    | error err => simpa only [Graph.call, hx] using h
    | ok x =>
      simp only [Graph.call, hx]
      exact h.solve hr hv hx
  | ask q => exact h

theorem Kept.calls (hr : r.IsMachine bits) {cs : List Call}
    (hfits : ∀ c ∈ cs, Call.fits r c = true) (hv : g.Valid (Register.limit bits)) (h : g.Kept) :
    (transcript Graph.call g cs).2.Kept := by
  induction cs generalizing g with
  | nil => exact h
  | cons c cs ih =>
    have hc := hfits c List.mem_cons_self
    have hcs : ∀ d ∈ cs, Call.fits r d = true := fun d hd => hfits d (List.mem_cons_of_mem c hd)
    exact ih hcs (hv.call hr hc) (h.call hr hv hc)

theorem Built.kept (hr : r.IsMachine bits) (hg : g.Built) : g.Kept := by
  obtain ⟨config, cs, hfits, rfl⟩ := hg
  exact Kept.calls hr hfits (empty_valid config) fun s hs => nomatch hs

/-! ## Refusals -/

theorem checkOverflow_eq_error {N : Network} (h : checkOverflow r N = .error e) :
    e = .overflow := by
  unfold checkOverflow at h
  split at h
  · cases h
  · exact (Except.error.inj h).symm

/-- **A solve** is refused only before the first one, and only if the capacities are too large. -/
theorem Valid.check_of_refused_solve (hr : r.IsMachine bits) (h : g.Valid (Register.limit bits))
    (he : g.solve = .error e) :
    g.search = none ∧ checkOverflow r g.network = .error .overflow ∧ e = .overflow := by
  by_cases hc : g.search = none → checkOverflow r g.network = .ok ()
  · obtain ⟨s₀, s, as, es, -, hok⟩ := Graph.exists_solves h (h.fits_of_check hr hc)
    have hsolve : g.solve = .ok (g.solvedWith s₀ s as es) :=
      (hok r hr.keeps fun x => Register.fits_of_mem_compared hr.mem_compared).2
    rw [hsolve] at he
    cases he
  · obtain ⟨hs, hc⟩ := Classical.not_imp.1 hc
    cases hcheck : checkOverflow r g.network with
    | ok p => exact absurd hcheck hc
    | error e' =>
      obtain rfl := checkOverflow_eq_error hcheck
      simp only [Graph.solve, currentSearch, hs, hcheck, bind, Except.bind] at he
      exact ⟨hs, rfl, (Except.error.inj he).symm⟩

/-! ## Calls that must not be made -/

/-- An edit that is made is neither refused nor without an answer. -/
theorem reply_of_edit {g' : Graph r} {edit : Edit} {reply : Reply}
    (h : g.edit edit = .ok (reply, g')) (e : GraphError) :
    reply ≠ .refused e ∧ reply ≠ .aborted e := by
  cases edit <;>
  · obtain ⟨p, -, h⟩ := bind_eq_ok_iff.1 h
    obtain ⟨rfl, -⟩ := Prod.mk.inj (Except.ok.inj h)
    simp

/-- Only the side of a node that does not exist must not be asked for. -/
theorem ask_eq_aborted_iff {q : Question} : g.ask q = .aborted e ↔
    ∃ v, q = .segmentOf v ∧ g.numNodes ≤ v ∧ e = .unknownNode v := by
  cases q with
  | segmentOf v =>
    have hnode := g.isSome_segment? v
    simp only [ask, segmentOf]
    cases hv : g.segment? v with
    | none =>
      rw [hv, Option.isSome_none, eq_comm, decide_eq_false_iff_not, Nat.not_lt] at hnode
      constructor
      · intro h
        exact ⟨v, rfl, hnode, (Reply.aborted.inj h).symm⟩
      · rintro ⟨w, hw, -, rfl⟩
        rw [Question.segmentOf.inj hw]
    | some side =>
      rw [hv, Option.isSome_some, eq_comm, decide_eq_true_eq] at hnode
      constructor
      · intro h
        cases h
      · rintro ⟨w, hw, hle, -⟩
        rw [← Question.segmentOf.inj hw] at hle
        exact absurd hnode (Nat.not_lt.2 hle)
  | _ => simp [ask]

/-- No question is refused. -/
theorem ask_ne_refused (q : Question) (e : GraphError) : g.ask q ≠ .refused e := by
  cases q with
  | segmentOf v =>
    simp only [ask]
    split <;> simp
  | _ => simp [ask]

/-- **The only call that must not be made** asks for the side of a node that does not exist. -/
theorem call_aborted_iff {c : Call} : (g.call c).1.reply = .aborted e ↔
    ∃ v, c = .ask (.segmentOf v) ∧ g.numNodes ≤ v ∧ e = .unknownNode v := by
  cases c with
  | edit edit =>
    cases he : g.edit edit with
    | error err => simp [Graph.call, he]
    | ok p =>
      obtain ⟨reply, g'⟩ := p
      simpa [Graph.call, he] using (reply_of_edit he e).2
  | solve => cases hx : g.solve <;> simp [Graph.call, hx]
  | ask q =>
    rw [call_of_question, ask_eq_aborted_iff]
    simp

/-! ## Every call -/

/-- **No call to the graph fails from inside.**  No reply tells of a fault, and the only call that
must not be made asks for the side of a node that does not exist.  Every node has a label and an
excess once the graph is solved, and a difference of terminal weights that the register can hold
before.  The search that a solve goes on with belongs to a network whose solves meet no fault. -/
structure NeverFails (g : Graph r) : Prop where
  reply_ne_fault : ∀ c f, (g.call c).1.reply ≠ .refused (.fault f)
  aborted_iff : ∀ c e, (g.call c).1.reply = .aborted e ↔
    ∃ v, c = .ask (.segmentOf v) ∧ g.numNodes ≤ v ∧ e = .unknownNode v
  size_eq : ∀ s, g.search = some s →
    s.forest.labels.size = g.numNodes ∧ s.residual.excess.size = g.numNodes
  difference_fits : g.search = none → ∀ t ∈ g.network.terminals, r.fits (t.source - t.sink) = true
  solves : ∀ s, g.currentSearch = .ok s →
    SearchOf r g.network.bare s ∧ SolvesInPlace r g.network.bare

/-- No call is refused because of a fault. -/
theorem Valid.reply_ne_fault (hr : r.IsMachine bits) (h : g.Valid (Register.limit bits)) (c : Call)
    (f : Fault) : (g.call c).1.reply ≠ .refused (.fault f) := by
  cases c with
  | edit edit =>
    cases he : g.edit edit with
    | error err =>
      simp only [Graph.call, he]
      rintro ⟨⟩
      exact g.edit_ne_fault edit f he
    | ok p =>
      obtain ⟨reply, g'⟩ := p
      simp only [Graph.call, he]
      exact (reply_of_edit he _).1
  | solve =>
    cases hx : g.solve with
    | error err =>
      simp only [Graph.call, hx]
      rw [(h.check_of_refused_solve hr hx).2.2]
      simp
    | ok x => simp [Graph.call, hx]
  | ask q =>
    rw [call_of_question]
    exact ask_ne_refused q _

/-- **No call fails from inside**, whatever calls have led to the graph, solves among them. -/
theorem built_neverFails (hr : r.IsMachine bits) (hg : g.Built) : g.NeverFails := by
  have hv := hg.valid hr
  refine ⟨hv.reply_ne_fault hr, fun c e => call_aborted_iff, ?_, ?_, ?_⟩
  · intro s hs
    have hby := hv.solved s hs
    have hwithin := hby.complete.balances.toWithin
    have hsize := hby.complete.sound.size_labels hwithin
    exact ⟨hsize, hwithin.size_eq⟩
  · intro hs t ht
    have hweights := (hv.plain hs).weights ht
    exact hr.fits_of_le (by omega) (by omega)
  · intro s hs
    obtain ⟨hadmissible, hof⟩ := (hg.kept hr).currentSearch hr hv hs
    exact ⟨hof, solvesInPlace hr hadmissible⟩

/-- The bridge has two nodes, so a third one must not be asked for.  It can be solved, and the first
turn of that solve leaves a forest to repair. -/
theorem built_neverFails_bridge : (bridge (.signed 8)).NeverFails ∧
    ((bridge (.signed 8)).call (.ask (.segmentOf 2))).1.reply = .aborted (.unknownNode 2) ∧
    (∃ s, (bridge (.signed 8)).currentSearch = .ok s) ∧
      ∃ i s, AtRepair (.signed 8) (bridge (.signed 8)).network.bare i s s.forest := by
  refine ⟨built_neverFails ⟨by decide, Or.inl rfl⟩ bridge_built, by decide, ?_, ?_⟩
  · obtain ⟨x, hx, -⟩ := exists_solve_bridge
    obtain ⟨s, hs, -⟩ := bind_eq_ok_iff.1 hx
    exact ⟨s, hs⟩
  · obtain ⟨x, hx, hturn⟩ := exists_atHead_of_headAfter (r := .signed 8)
      (N := (bridge (.signed 8)).network.bare) true 0
      (p := fun x => (x.turn (.signed 8)).map fun t =>
        match t with
        | .next _ a => a
        | .finished _ => none) (b := .ok (some ⟨3, 0, 1⟩))
      (by decide +kernel)
    obtain ⟨t, ht, ha⟩ := map_eq_ok_iff.1 hturn
    cases t with
    | finished s => cases ha
    | next y a =>
      obtain rfl : a = _ := ha
      obtain ⟨i, mt, s, s', hmeet, haugment, -⟩ := hx.exists_meeting ht
      exact ⟨i, s', .start hmeet haugment⟩

end Graph

end MinCut
