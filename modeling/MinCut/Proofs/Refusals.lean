/-
# Refused calls

An edit is refused for what is wrong with it first, and a solve only before the first one that
succeeds.  A refused call changes nothing but the log, even where the program works in place.  So
it can be left out of a session, and all other calls are answered as before.

Key facts:
* `Valid.call_of_refused` : a refused call leaves the graph;
* `liveBefore_eq` : the variables before every call of a session;
* `session_refusesHarmlessly` : the refused calls of a session.
-/
import MinCut.Proofs.CallsInPlace

namespace MinCut

namespace Graph

variable {r : Register} {config : Config} {cs : List Call} {k : Nat} {c : Call} {a : Answer}
variable {e : Edit} {g : Graph r} {err : GraphError} {bits : Nat}

/-! ## The variables of a session -/

/-- The variables before the call with number `k`, where the calls are made in place. -/
def liveBefore (r : Register) (config : Config) (cs : List Call) (k : Nat) : Live :=
  (transcript (Live.call r) (.empty config) (cs.take k)).2

/-- Calls made in place on a graph without nodes. -/
theorem transcript_live (hr : r.IsMachine bits) (hfits : ∀ c ∈ cs, Call.fits r c = true)
    (config : Config) : transcript (Live.call r) (.empty config) cs =
      ((session r config cs).1.map Answer.reply,
        Live.of (session r config cs).2 ((session r config cs).1.flatMap Answer.events)) :=
  Live.transcript_of (g := Graph.empty r config) hr hfits (empty_valid config) []

/-- **Before every call** the variables are those of the graph, with what was heard. -/
theorem liveBefore_eq (hr : r.IsMachine bits) (hfits : ∀ c ∈ cs, Call.fits r c = true)
    (config : Config) (k : Nat) : liveBefore r config cs k =
      Live.of (graphBefore r config cs k) (heard r config cs k) := by
  have htake : ∀ c ∈ cs.take k, Call.fits r c = true := fun c hc =>
    hfits c (List.mem_of_mem_take hc)
  have hanswers : (session r config (cs.take k)).1 = (session r config cs).1.take k :=
    (take_transcript Graph.call (Graph.empty r config) cs k).symm
  rw [liveBefore, transcript_live hr htake, hanswers]
  rfl

/-! ## Refused calls -/

/-- **A refused call** leaves the graph, and only an edit that comes too late is heard. -/
theorem Valid.call_of_refused (hr : r.IsMachine bits) (hv : g.Valid (Register.limit bits))
    (h : (g.call c).1.reply = .refused err) :
    (g.call c).2 = g ∧ (g.call c).1.events = eventsOfRefusal err := by
  cases c with
  | edit e =>
    cases he : g.edit e with
    | error err' =>
      simp only [Graph.call, he, Reply.refused.injEq] at h ⊢
      exact ⟨trivial, by rw [h]⟩
    | ok p =>
      obtain ⟨reply, g'⟩ := p
      simp only [Graph.call, he] at h
      exact absurd h (reply_of_edit he err).1
  | solve =>
    cases hx : g.solve with
    | error err' =>
      obtain ⟨-, -, rfl⟩ := hv.check_of_refused_solve hr hx
      simp only [Graph.call, hx, Reply.refused.injEq] at h ⊢
      exact ⟨trivial, by rw [← h]; rfl⟩
    | ok x => simp [Graph.call, hx] at h
  | ask q => exact absurd h (ask_ne_refused q err)

/-- A refused call of a session leaves the graph, and only an edit that comes too late is heard. -/
theorem Exchange.of_refused (hr : r.IsMachine bits) (hfits : ∀ c ∈ cs, Call.fits r c = true)
    (h : Exchange r config cs k c a) (herr : a.reply = .refused err) :
    ((graphBefore r config cs k).call c).2 = graphBefore r config cs k ∧
      a.events = eventsOfRefusal err := by
  rw [← h.answer] at herr ⊢
  exact (graphBefore_valid hr hfits config k).call_of_refused hr herr

/-- A solve of a session is refused only for its sums, and only if the graph is not solved. -/
theorem Exchange.of_refused_solve (hr : r.IsMachine bits) (hfits : ∀ c ∈ cs, Call.fits r c = true)
    (h : Exchange r config cs k .solve a) (herr : a.reply = .refused err) :
    err = .overflow ∧ (graphBefore r config cs k).search = none := by
  have hv := graphBefore_valid hr hfits config k
  rw [← h.answer] at herr
  cases hx : (graphBefore r config cs k).solve with
  | ok x => simp [Graph.call, hx] at herr
  | error err' =>
    obtain ⟨hs, -, rfl⟩ := hv.check_of_refused_solve hr hx
    simp only [Graph.call, hx, Reply.refused.injEq] at herr
    exact ⟨herr.symm, hs⟩

/-- What is heard of a call stands between what is heard before it and what is heard after it. -/
theorem Exchange.flatMap_events (h : Exchange r config cs k c a) :
    (session r config cs).1.flatMap Answer.events =
      ((session r config cs).1.take k).flatMap Answer.events ++ a.events ++
        ((session r config cs).1.drop (k + 1)).flatMap Answer.events := by
  obtain ⟨hlt, ha⟩ := List.getElem?_eq_some_iff.1 h.answer_eq
  rw [← ha, ← List.flatMap_singleton Answer.events, ← List.flatMap_append, ← List.flatMap_append,
    List.take_append_getElem, List.take_append_drop]

/-- The reply to an edit tells what is wrong with it first. -/
theorem Exchange.refused_iff (h : Exchange r config cs k (.edit e) a) :
    a.reply = .refused err ↔ (graphBefore r config cs k).refusal? e = some err := by
  rw [← h.answer, ← edit_eq_error_iff]
  cases he : (graphBefore r config cs k).edit e with
  | error err' => simp [Graph.call, he]
  | ok p =>
    obtain ⟨reply, g'⟩ := p
    simpa [Graph.call, he] using (reply_of_edit he err).1

/-- **The refused calls of a session.**  What is wrong first with an edit is the error: that the
graph was solved before, then the first node named that does not exist, then a negative capacity,
then an accumulated weight that leaves the register.  A solve is refused only for the sums of the
capacities, and only if none has succeeded before.  A refused call changes neither the graph nor the
variables in which a program keeps it, it is heard only if it is an edit of a solved graph, and all
other calls are answered as if it was not made. -/
structure RefusesHarmlessly (r : Register) (config : Config) (cs : List Call) : Prop where
  frozen : ∀ k e a, Exchange r config cs k (.edit e) a →
    (a.reply = .refused .frozen ↔ SolvedBefore r config cs k)
  unknownNode : ∀ k e a v, Exchange r config cs k (.edit e) a → ¬ SolvedBefore r config cs k →
    (a.reply = .refused (.unknownNode v) ↔
      (e.nodes.find? fun v => decide ((graphBefore r config cs k).numNodes ≤ v)) = some v)
  negativeCapacity : ∀ k e a, Exchange r config cs k (.edit e) a → ¬ SolvedBefore r config cs k →
    (∀ v ∈ e.nodes, v < (graphBefore r config cs k).numNodes) →
      (a.reply = .refused .negativeCapacity ↔ ∃ x ∈ e.capacities, x < 0)
  overflow : ∀ k e a, Exchange r config cs k (.edit e) a → ¬ SolvedBefore r config cs k →
    (∀ v ∈ e.nodes, v < (graphBefore r config cs k).numNodes) → (∀ x ∈ e.capacities, 0 ≤ x) →
      (a.reply = .refused .overflow ↔
        ∃ z ∈ e.sums (graphBefore r config cs k), r.fits z = false)
  edit : ∀ k e a err, Exchange r config cs k (.edit e) a → a.reply = .refused err →
    err = .frozen ∨ (∃ v, err = .unknownNode v) ∨ err = .negativeCapacity ∨ err = .overflow
  solve : ∀ k a err, Exchange r config cs k .solve a → a.reply = .refused err →
    err = .overflow ∧ ¬ SolvedBefore r config cs k ∧
      (graphBefore r config cs (k + 1)).status = .notSolved ∧
        (graphBefore r config cs (k + 1)).checkEditable = .ok ()
  inPlace : transcript (Live.call r) (.empty config) cs =
    ((session r config cs).1.map Answer.reply,
      Live.of (session r config cs).2 ((session r config cs).1.flatMap Answer.events))
  unchanged : ∀ k c a err, Exchange r config cs k c a → a.reply = .refused err →
    graphBefore r config cs (k + 1) = graphBefore r config cs k ∧
      liveBefore r config cs (k + 1) = { liveBefore r config cs k with
        told := (liveBefore r config cs k).told ++ eventsOfRefusal err }
  leftOut : ∀ k c a err, Exchange r config cs k c a → a.reply = .refused err →
    a.events = eventsOfRefusal err ∧
      session r config (cs.eraseIdx k) =
        ((session r config cs).1.eraseIdx k, (session r config cs).2)
  leftOutInPlace : ∀ k c a err, Exchange r config cs k c a → a.reply = .refused err →
    ∃ past future replies live, transcript (Live.call r) (.empty config) cs = (replies, live) ∧
      live.told = past ++ eventsOfRefusal err ++ future ∧
        transcript (Live.call r) (.empty config) (cs.eraseIdx k) =
          (replies.eraseIdx k, { live with told := past ++ future })

/-! ## All calls of a session -/

/-- **Every session** refuses exactly what is wrong, and harmlessly. -/
theorem session_refusesHarmlessly (hr : r.IsMachine bits) (hfits : ∀ c ∈ cs, Call.fits r c = true)
    (config : Config) : RefusesHarmlessly r config cs where
  frozen k e a h := by
    rw [h.refused_iff, ← edit_eq_error_iff, edit_eq_frozen_iff, solvedBefore_iff]
  unknownNode k e a v h hnot := by
    rw [solvedBefore_iff] at hnot
    rw [h.refused_iff, refusal?_eq_unknownNode_iff hnot]
  negativeCapacity k e a h hnot hnodes := by
    rw [solvedBefore_iff] at hnot
    rw [h.refused_iff, refusal?_of_nodes hnot hnodes]
    split
    · rename_i hx
      exact iff_of_true rfl hx
    · rename_i hx
      refine iff_of_false ?_ hx
      split <;> simp
  overflow k e a h hnot hnodes hcap := by
    rw [solvedBefore_iff] at hnot
    have hx : ¬ ∃ x ∈ e.capacities, x < 0 := by
      rintro ⟨x, hx, hneg⟩
      exact absurd (hcap x hx) (by omega)
    rw [h.refused_iff, refusal?_of_nodes hnot hnodes, if_neg hx]
    simp
  edit k e a err h herr := by
    rcases refusal?_cases (h.refused_iff.1 herr) with ⟨rfl, -⟩ | herr
    · exact .inl rfl
    · exact .inr herr
  solve k a err h herr := by
    obtain ⟨hgraph, -⟩ := h.of_refused hr hfits herr
    obtain ⟨rfl, hs⟩ := h.of_refused_solve hr hfits herr
    rw [graphBefore_succ h.call_eq, hgraph, solvedBefore_iff]
    exact ⟨rfl, by simp [hs], by simp only [status, hs], by simp only [checkEditable, hs]⟩
  inPlace := transcript_live hr hfits config
  unchanged k c a err h herr := by
    obtain ⟨hgraph, hevents⟩ := h.of_refused hr hfits herr
    have hnext : graphBefore r config cs (k + 1) = graphBefore r config cs k := by
      rw [graphBefore_succ h.call_eq, hgraph]
    refine ⟨hnext, ?_⟩
    rw [liveBefore_eq hr hfits, liveBefore_eq hr hfits, hnext, heard_succ h, hevents]
    rfl
  leftOut k c a err h herr := by
    obtain ⟨hgraph, hevents⟩ := h.of_refused hr hfits herr
    exact ⟨hevents, transcript_eraseIdx h.call_eq hgraph⟩
  leftOutInPlace k c a err h herr := by
    obtain ⟨hgraph, hevents⟩ := h.of_refused hr hfits herr
    have hleft : session r config (cs.eraseIdx k) = _ := transcript_eraseIdx h.call_eq hgraph
    have hfits' : ∀ c ∈ cs.eraseIdx k, Call.fits r c = true := fun c hc =>
      hfits c (List.mem_of_mem_eraseIdx hc)
    refine ⟨((session r config cs).1.take k).flatMap Answer.events,
      ((session r config cs).1.drop (k + 1)).flatMap Answer.events, _, _,
      transcript_live hr hfits config, ?_, ?_⟩
    · rw [← hevents, ← h.flatMap_events]
      rfl
    · rw [transcript_live hr hfits', hleft, List.eraseIdx_map, ← List.flatMap_append,
        ← List.eraseIdx_eq_take_drop_succ]
      rfl

/-- Weights that cannot be accumulated, an edge that is wrong in two ways, one with a negative
capacity, and an edit that comes too late. -/
theorem session_refusesHarmlessly_narrow :
    RefusesHarmlessly (.signed 8) .standard
        [.edit (.addNodes 2), .edit (.addTerminalWeights 0 100 100),
          .edit (.addTerminalWeights 0 20 100), .edit (.addEdge 7 9 (-1) 0),
          .edit (.addEdge 0 1 (-1) 0), .solve, .edit .addNode, .solve] ∧
      (session (.signed 8) .standard
        [.edit (.addNodes 2), .edit (.addTerminalWeights 0 100 100),
          .edit (.addTerminalWeights 0 20 100), .edit (.addEdge 7 9 (-1) 0),
          .edit (.addEdge 0 1 (-1) 0), .solve, .edit .addNode, .solve]).1.map Answer.reply =
        [.nodes [0, 1], .done, .refused .overflow, .refused (.unknownNode 7),
          .refused .negativeCapacity, .capacity 100, .refused .frozen, .capacity 100] :=
  ⟨session_refusesHarmlessly ⟨by decide, Or.inl rfl⟩ (by decide) .standard, by decide +kernel⟩

end Graph

end MinCut
