/-
# Pushes on the queue of active nodes

A push of a linked node does nothing.  It loses nothing either: such a node waits already, or it is
the held node, which is looked at again before any other is taken up.

Key facts:
* `AtRepair.exists_turn` : the turn in which a forest is repaired, and the head it leads to;
* `Run.Sound.takesUpFirst` : the held node is the first to be looked at;
* `queue_staysExact` : every head and every push of every solve.
-/
import MinCut.Proofs.DuePushes

namespace MinCut

variable {r : Register} {N : Network} {m : Int} {bits : Nat} {s : Search} {i u : Nat}

/-! ## The head after a phase -/

/-- **The turn from `x` to `y`** comes through an augmentation that leaves the search `s`, whose
forest is then repaired. -/
def Run.TurnsThrough (r : Register) (x : Run) (s : Search) (y : Run) : Prop :=
  ∃ i mt s₀ a, x.meeting? = .ok (some (i, mt, s₀)) ∧ s₀.augment r mt = .ok (s, a) ∧
    s.repair = .ok y.search ∧ x.turn r = .ok (.next y (some a))

/-- **The first thing at the head `y`** is that the held node `u` is let go and looked at: it grows
if it is in a tree, and only if it is free the queue is asked for another node. -/
def Run.TakesUpFirst (y : Run) (u : Nat) : Prop :=
  y.held = some u ∧ ∃ f, y.search.forest.mark u false = .ok f ∧
    f.active.waiting = y.search.forest.active.waiting ∧
      (f.isAttached u = .ok true ∧ y.search.forest.choose y.held = .ok (some u, f) ∨
        f.labels[u]? = some none ∧
          y.search.forest.choose y.held = f.nextActive f.active.queue.size)

/-- **A phase** is part of a turn, at the end of which the node that found the meeting is held. -/
theorem AtRepair.exists_turn {f : Forest} (hr : r.Keeps m) (hN : N.WellFormed) (hm : N.Fits m)
    (h : AtRepair r N i s f) : ∃ x y, AtHead r N x ∧ AtHead r N y ∧ x.TurnsThrough r s y ∧
      y.held = some i := by
  induction h with
  | settled _ _ ih => exact ih
  | @start mt s₀ a hmeet haug =>
    obtain ⟨hb, hrep⟩ := (AtRepair.start hmeet haug).repairing hr hN hm
    obtain ⟨f', c, hadopt, -⟩ := Forest.adopt_spec hN hb.toWithin hrep
    have hrepair : s.repair = .ok { s with forest := f', adoptions := s.adoptions + c } := by
      simp only [Search.repair, hadopt, bind, Except.bind, pure, Except.pure]
    obtain ⟨x, f, g, k, hx, hchoose, hgrow, hmark, rfl⟩ := hmeet
    have hmeeting : x.meeting? = .ok (some (i, mt, { x.search with forest := k })) := by
      simp only [Run.meeting?, hchoose, hgrow, hmark, bind, Except.bind, pure, Except.pure]
    have hturn : x.turn r =
        .ok (.next ⟨{ s with forest := f', adoptions := s.adoptions + c }, some i⟩ (some a)) := by
      simp only [Run.turn, Search.meet, hchoose, hgrow, hmark, haug, hrepair, bind, Except.bind,
        pure, Except.pure]
    exact ⟨x, _, hx, hx.next hturn, ⟨i, mt, _, a, hmeeting, haug, hrepair, hturn⟩, rfl⟩

/-- **The held node** is the first to be looked at. -/
theorem Run.Sound.takesUpFirst {y : Run} (h : y.Sound N) (hheld : y.held = some u) :
    y.TakesUpFirst u := by
  have hready := h.ready
  rw [hheld] at hready
  obtain ⟨q, hmark, -, hwaiting, -⟩ := hready.letGo
  refine ⟨hheld, _, hmark, hwaiting, ?_⟩
  have hu := hready.tracks.lt_of_held
  have hattached := Forest.isAttached_eq (f := { y.search.forest with active := q }) hu
  have hlabel : Forest.label { y.search.forest with active := q } u = y.search.forest.label u := rfl
  rw [hlabel] at hattached
  rw [hheld]
  cases hl : y.search.forest.label u with
  | none =>
    rw [hl] at hattached
    have hget := fetch_eq_ok_iff.1 (Forest.fetch_labels hu)
    rw [hl] at hget
    refine .inr ⟨hget, ?_⟩
    simp only [Forest.choose, hmark, hattached, Option.any_none, bind, Except.bind,
      Bool.false_eq_true, if_false]
  | some l =>
    -- no node waits for a parent, so a node of a tree hangs on something
    rw [hl, Option.any_some, (Label.isAttached_iff l).2 (hready.settled u l hl)] at hattached
    refine .inl ⟨hattached, ?_⟩
    simp only [Forest.choose, hmark, hattached, bind, Except.bind, pure, Except.pure, if_true]

/-! ## Every head and every push -/

/-- A push of a linked node does nothing. -/
theorem ActiveQueue.push_of_linked {q : ActiveQueue} (h : q.linked[u]? = some true) :
    q.push u = .ok q := by
  simp only [push, fetch_eq_ok_iff.2 h, bind, Except.bind, pure, Except.pure, if_true]

/-- **The queue stays exact.**  At every head of every solve of an admissible network no node waits
twice, a node is linked if it waits or is held and only then, the held node does not wait, and
whatever waits is a node.  So a push of a linked node, which does nothing, loses nothing: the node
waits already, or an adopt phase is under way after an augmentation and the node is held, and then
it is the first to be looked at when the turn has come to the next head.  Nothing else is done to
the queue: from the empty queue to the first head, and from head to head, it changes by pushes that
are due, by taking nodes up, and by setting marks by hand. -/
theorem queue_staysExact (hr : r.IsMachine bits) (hN : N.Admissible r) :
    (∀ x, AtHead r N x →
      x.search.forest.active.waiting.Nodup ∧
      (∀ u : Nat, x.search.forest.active.linked[u]? = some true ↔
        u ∈ x.search.forest.active.waiting ∨ x.held = some u) ∧
      (∀ u, x.held = some u → u ∉ x.search.forest.active.waiting) ∧
      ∀ u ∈ x.search.forest.active.waiting, u < N.numNodes) ∧
    (∀ phase q u, PushDue r N phase q u → q.linked[u]? = some true →
      q.push u = .ok q ∧ (u ∈ q.waiting ∨ ∃ s x y, phase = some (u, s) ∧ AtHead r N x ∧
        AtHead r N y ∧ x.TurnsThrough r s y ∧ y.TakesUpFirst u)) ∧
    (∀ s s', SearchOf r N s → s.restart = .ok s' →
      QueueLeads r N (.ofSize N.numNodes) s'.forest.active) ∧
    ∀ x y a, AtHead r N x → x.turn r = .ok (.next y a) →
      QueueLeads r N x.search.forest.active y.search.forest.active := by
  have hwf := hN.toWellFormed
  have hm := hN.fits hr
  refine ⟨fun x hx => ?_, fun phase q u hdue hlinked => ?_, fun s s' hs hrestart => ?_,
    fun x y a hx hturn => hx.queueLeads hr.keeps hwf hm hturn⟩
  · obtain ⟨hb, hready⟩ := hx.sound hr.keeps hwf hm
    have htracks := hready.tracks
    rw [hready.sound.size_labels hb.toWithin] at htracks
    exact ⟨htracks.nodup, htracks.linked_iff, htracks.held_not_mem,
      fun u hu => htracks.lt_of_mem hu⟩
  · refine ⟨ActiveQueue.push_of_linked hlinked, ?_⟩
    have htracks := hdue.tracks hr.keeps hwf hm
    refine ((htracks.linked_iff u).1 hlinked).imp_right fun hheld => ?_
    cases hdue with
    | root | claim => cases hheld
    | @wake i v _ s side a bs f hleaving =>
      obtain rfl : i = u := Option.some.inj hheld
      obtain ⟨f', o, l, as, h, hrepair, -⟩ := hleaving
      obtain ⟨x, y, hx, hy, hturn, hyheld⟩ := hrepair.exists_turn hr.keeps hwf hm
      exact ⟨s, x, y, rfl, hx, hy, hturn, (hy.sound hr.keeps hwf hm).takesUpFirst hyheld⟩
  · have hleads := hs.queueLeads_restart hrestart
    rwa [(hs.balances hr.keeps hwf hm).size_eq] at hleads

/-- The source gives a single unit, which flows from node to node to the sink. -/
def trickle : Network where
  edges := #[.idle 0 1 5 0, .idle 1 2 5 0, .idle 2 3 5 0]
  terminals := #[⟨1, 0⟩, ⟨0, 0⟩, ⟨0, 0⟩, ⟨0, 5⟩]

theorem trickle_admissible : trickle.Admissible (.signed 8) :=
  ⟨⟨by decide, by decide, by decide, by decide, by decide, by decide⟩, by decide, by decide,
    by decide +kernel⟩

/-- Node 1, which is held, is woken when node 0 leaves the source tree. -/
theorem queue_staysExact_trickle : ∃ (s : Search) (q : ActiveQueue) (x y : Run),
    PushDue (.signed 8) trickle (some (1, s)) q 1 ∧ q.waiting = [2] ∧ q.push 1 = .ok q ∧
      AtHead (.signed 8) trickle y ∧ x.TurnsThrough (.signed 8) s y ∧ y.TakesUpFirst 1 := by
  obtain ⟨i, mt, s₀, hat, heval⟩ := exists_atMeeting_of_headAfter (r := .signed 8) (N := trickle)
    (p := fun q => do
      let p ← q.2.2.augment (.signed 8) q.2.1
      let arcs ← p.1.residual.arcs.around 0
      let c ← Forest.considerAll p.1.residual.arcs .source
        { p.1.forest with orphans := .empty } none arcs
      let capacity ← p.1.residual.arcs.treeResidual .source ⟨0, .forward⟩
      let j ← p.1.residual.arcs.head ⟨0, .forward⟩
      return decide (q.1 = 1 ∧ arcs = [⟨0, .forward⟩] ∧ capacity = 1 ∧ j = 1 ∧
        p.1.forest.orphans.next? = some (0, .empty) ∧
        p.1.forest.labels[0]? = some (some (Label.mk .source .orphan 0 1)) ∧
        c.2 = none ∧
        c.1.labels[1]? = some (some (Label.mk .source (.via ⟨0, .reverse⟩) 0 2)) ∧
        c.1.active.waiting = [2] ∧ c.1.active.linked[1]? = some true))
    (b := true) true 2 (by decide +kernel)
  obtain ⟨⟨s, a⟩, haug, heval⟩ := bind_eq_ok_iff.1 heval
  obtain ⟨arcs, harcs, heval⟩ := bind_eq_ok_iff.1 heval
  obtain ⟨⟨h, best⟩, hconsider, heval⟩ := bind_eq_ok_iff.1 heval
  obtain ⟨capacity, hcapacity, heval⟩ := bind_eq_ok_iff.1 heval
  obtain ⟨j, hj, heval⟩ := bind_eq_ok_iff.1 heval
  obtain ⟨rfl, rfl, rfl, rfl, hnext, hroot, rfl, hchild, hwaiting, hlinked⟩ :=
    of_decide_eq_true (Except.ok.inj heval)
  have hleaving : AtLeaving (.signed 8) trickle 1 s 0 .source [⟨0, .forward⟩]
      (h.setLabel 0 none) :=
    ⟨s.forest, .empty, _, [], h, .start hat haug, hnext, hroot, rfl, harcs,
      hconsider, rfl⟩
  have hwakes : (h.setLabel 0 none).Wakes s.residual.arcs .source ⟨0, .forward⟩ 1 :=
    ⟨_, 1, hj, by simpa [Forest.setLabel] using hchild, rfl, hcapacity, by decide⟩
  obtain ⟨-, hpushes, -⟩ := queue_staysExact ⟨by decide, Or.inl rfl⟩ trickle_admissible
  obtain ⟨hpush, hmem | ⟨s', x', y, hphase, -, hy, hturn, hfirst⟩⟩ :=
    hpushes _ _ _ (.wake hleaving hwakes) hlinked
  · rw [show (h.setLabel 0 none).active.waiting = [2] from hwaiting] at hmem
    cases List.mem_singleton.1 hmem
  · cases hphase
    exact ⟨s, _, x', y, .wake hleaving hwakes, hwaiting, hpush, hy, hturn, hfirst⟩

end MinCut
