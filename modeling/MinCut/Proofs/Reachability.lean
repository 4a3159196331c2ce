/-
# The trees at the end of a search

When a search has ended, its two trees are what can be reached over the residual network: the
source tree holds exactly the nodes into which the source can still send flow, the sink tree
exactly the nodes that can still send flow into the sink, and no node is of both kinds.

A node of a tree is reached along the tree edges between its root and itself.  The other way
round, the trees hold all nodes with an excess, and as no tree can grow any more, they hold with a
node whatever can be reached from there.

Key facts:
* `link_iff` : a link of the residual network is an arc with residual capacity;
* `Complete.exists_label_of_fromSource` and `Complete.exists_label_of_toSink` : what can be reached
  lies in the trees, by induction on the way there;
* `trees_reachExactly` : the trees at the end of every solve.
-/
import MinCut.Proofs.Termination
import MinCut.Residual.Reach

namespace MinCut

namespace Residual

variable {R : Residual} {N : Network} {u v : Nat}

/-! ## Links -/

/-- **A link is an arc with residual capacity** to another node. -/
theorem link_iff (hR : R.Within N) (hu : u < N.numNodes) :
    R.Link u v ↔ u ≠ v ∧ ∃ a, R.arcs.Leads a u v ∧ 0 < R.arcs.capacity a := by
  have haround := hR.arcs.around_eq u hu
  constructor
  · rintro ⟨as, a, x, has, hmem, hhead, hx, hpos⟩
    rw [haround] at has
    cases has
    obtain ⟨w, ha, hne⟩ := hR.arcs.mem_around.1 hmem
    rw [ha.head_eq] at hhead
    cases hhead
    rw [ha.residual_eq] at hx
    cases hx
    exact ⟨hne, a, ha, hpos⟩
  · rintro ⟨hne, a, ha, hpos⟩
    exact ⟨_, a, _, haround, hR.arcs.mem_around.2 ⟨v, ha, hne⟩, ha.head_eq, ha.residual_eq, hpos⟩

/-- The excess of a node that exists. -/
theorem getElem?_excess (hR : R.Within N) (hu : u < N.numNodes) :
    R.excess[u]? = some (R.excessAt u) := by
  have hlt : u < R.excess.size := by
    rw [hR.size_eq]
    exact hu
  simp [excessAt, hlt]

/-- An excess that is found is that of a node. -/
theorem excessAt_of_getElem? (hR : R.Within N) {x : Int} (hx : R.excess[u]? = some x) :
    u < N.numNodes ∧ R.excessAt u = x := by
  refine ⟨?_, by simp [excessAt, hx]⟩
  rw [← hR.size_eq]
  exact (Array.getElem?_eq_some_iff.1 hx).1

end Residual

namespace Search

variable {N : Network} {s : Search} {u : Nat}

/-! ## What can be reached lies in the trees -/

/-- **What the source can reach lies in the source tree.** -/
theorem Complete.exists_label_of_fromSource (h : s.Complete N) (hN : N.WellFormed)
    (hu : s.residual.FromSource u) :
    u < N.numNodes ∧ ∃ l, s.forest.label u = some l ∧ l.side = .source := by
  have hR := h.balances.toWithin
  induction hu with
  | start hx hpos =>
    rename_i v x
    obtain ⟨hlt, hat⟩ := Residual.excessAt_of_getElem? hR hx
    obtain ⟨l, hl, hp⟩ := h.sound.root_of_excess v (by omega)
    refine ⟨hlt, l, hl, ?_⟩
    rcases h.sound.bound v l hl hp with ⟨hs, -⟩ | ⟨-, hneg⟩
    · exact hs
    · omega
  | link _ hlink ih =>
    obtain ⟨hlt, l, hl, hs⟩ := ih
    obtain ⟨-, a, ha, hpos⟩ := (Residual.link_iff hR hlt).1 hlink
    refine ⟨(hR.arcs.lt_of_leads hN ha).2, ?_⟩
    -- the source tree could grow along the arc, so it holds the other end already
    obtain ⟨m, hm, hms⟩ := h.exhausted _ l a _ hl ha (by
      rw [hs]
      show 0 < s.residual.arcs.capacity a.sister.sister
      rwa [ArcRef.sister_sister])
    exact ⟨m, hm, hms.trans hs⟩

/-- **What can reach the sink lies in the sink tree.** -/
theorem Complete.exists_label_of_toSink (h : s.Complete N) (hN : N.WellFormed)
    (hu : s.residual.ToSink u) (hlt : u < N.numNodes) :
    ∃ l, s.forest.label u = some l ∧ l.side = .sink := by
  have hR := h.balances.toWithin
  induction hu with
  | finish hx hneg =>
    rename_i v x
    obtain ⟨-, hat⟩ := Residual.excessAt_of_getElem? hR hx
    obtain ⟨l, hl, hp⟩ := h.sound.root_of_excess v (by omega)
    refine ⟨l, hl, ?_⟩
    rcases h.sound.bound v l hl hp with ⟨-, hpos⟩ | ⟨hs, -⟩
    · omega
    · exact hs
  | link hlink _ ih =>
    obtain ⟨-, a, ha, hpos⟩ := (Residual.link_iff hR hlt).1 hlink
    obtain ⟨l, hl, hs⟩ := ih (hR.arcs.lt_of_leads hN ha).2
    -- the sink tree could grow against the arc, which is the sister of the arc back
    obtain ⟨m, hm, hms⟩ := h.exhausted _ l a.sister _ hl ha.sister (by
      rw [hs, ArcRef.sister_sister]
      exact hpos)
    exact ⟨m, hm, hms.trans hs⟩

/-! ## What lies in the trees can be reached -/

/-- The source can reach every node of the source tree. -/
theorem Complete.fromSource (h : s.Complete N) (hN : N.WellFormed) {l : Label}
    (hu : s.forest.label u = some l) (hl : l.side = .source) : s.residual.FromSource u := by
  have hR := h.balances.toWithin
  apply h.induction_on_tree (P := s.residual.FromSource) ?_ ?_ hu hl
  · intro v hv hpos
    exact .start (Residual.getElem?_excess hR hv) hpos
  · intro a v w ha hne hpos hw
    have hlt := (hR.arcs.lt_of_leads hN ha).2
    exact .link hw ((Residual.link_iff hR hlt).2 ⟨Ne.symm hne, a.sister, ha.sister, hpos⟩)

/-- Every node of the sink tree can reach the sink. -/
theorem Complete.toSink (h : s.Complete N) (hN : N.WellFormed) {l : Label}
    (hu : s.forest.label u = some l) (hl : l.side = .sink) : s.residual.ToSink u := by
  have hR := h.balances.toWithin
  apply h.induction_on_tree (P := s.residual.ToSink) ?_ ?_ hu hl
  · intro v hv hpos
    refine .finish (Residual.getElem?_excess hR hv) ?_
    simp only [Segment.directed] at hpos
    omega
  · intro a v w ha hne hpos hw
    have hlt := (hR.arcs.lt_of_leads hN ha).1
    exact .link ((Residual.link_iff hR hlt).2 ⟨hne, a, ha, hpos⟩) hw

/-! ## The trees -/

/-- The node hangs on something in the tree `side`. -/
def InTree (s : Search) (side : Segment) (u : Nat) : Prop :=
  ∃ l : Label, s.forest.labels[u]? = some (some l) ∧ l.isAttached = true ∧ l.side = side

/-- The node is in neither tree. -/
def IsFree (s : Search) (u : Nat) : Prop := s.forest.labels[u]? = some none

/-- **The trees are what can be reached**: the nodes of the source tree can be reached from the
source, those of the sink tree can reach the sink, the free nodes are neither, and no node is
both. -/
structure ReachExactly (N : Network) (s : Search) : Prop where
  source_iff : ∀ u, u < N.numNodes → (s.InTree .source u ↔ s.residual.FromSource u)
  sink_iff : ∀ u, u < N.numNodes → (s.InTree .sink u ↔ s.residual.ToSink u)
  free_iff : ∀ u, u < N.numNodes →
    (s.IsFree u ↔ ¬ s.residual.FromSource u ∧ ¬ s.residual.ToSink u)
  disjoint : ∀ u, ¬ (s.residual.FromSource u ∧ s.residual.ToSink u)

/-- At the end of a search every node of a tree hangs on something. -/
theorem Complete.inTree_iff (h : s.Complete N) {side : Segment} :
    s.InTree side u ↔ ∃ l, s.forest.label u = some l ∧ l.side = side := by
  constructor
  · rintro ⟨l, hl, -, hs⟩
    exact ⟨l, Forest.label_eq_some_iff.2 hl, hs⟩
  · rintro ⟨l, hl, hs⟩
    exact ⟨l, Forest.label_eq_some_iff.1 hl, (l.isAttached_iff).2 (h.settled u l hl), hs⟩

/-- A node is free if it is in neither tree. -/
theorem Complete.isFree_iff (h : s.Complete N) (hu : u < N.numNodes) :
    s.IsFree u ↔ ¬ s.InTree .source u ∧ ¬ s.InTree .sink u := by
  have hlt : u < s.forest.labels.size := by
    rw [h.sound.size_labels h.balances.toWithin]
    exact hu
  have hread := Forest.fetch_labels hlt
  rw [fetch_eq_ok_iff] at hread
  rw [h.inTree_iff, h.inTree_iff, IsFree, hread]
  cases hl : s.forest.label u with
  | none => simp
  | some l => cases hs : l.side <;> simp [hs]

/-- **The trees of a complete search are what can be reached.** -/
theorem Complete.reachExactly (h : s.Complete N) (hN : N.WellFormed) : s.ReachExactly N := by
  have hsource : ∀ u, u < N.numNodes → (s.InTree .source u ↔ s.residual.FromSource u) := by
    intro u _
    rw [h.inTree_iff]
    constructor
    · rintro ⟨l, hl, hs⟩
      exact h.fromSource hN hl hs
    · exact fun hu => (h.exists_label_of_fromSource hN hu).2
  have hsink : ∀ u, u < N.numNodes → (s.InTree .sink u ↔ s.residual.ToSink u) := by
    intro u hlt
    rw [h.inTree_iff]
    constructor
    · rintro ⟨l, hl, hs⟩
      exact h.toSink hN hl hs
    · exact fun hu => h.exists_label_of_toSink hN hu hlt
  refine ⟨hsource, hsink, ?_, ?_⟩
  · intro u hu
    rw [h.isFree_iff hu, hsource u hu, hsink u hu]
  · rintro u ⟨hu, hu'⟩
    obtain ⟨hlt, l, hl, hs⟩ := h.exists_label_of_fromSource hN hu
    obtain ⟨k, hk, hks⟩ := h.exists_label_of_toSink hN hu' hlt
    -- one node has one label
    obtain rfl : l = k := Option.some.inj (hl.symm.trans hk)
    rw [hs] at hks
    cases hks

end Search

/-! ## Every solve -/

/-- A channel between the source and the sink whose entrance and exit are both narrower than the
rest: a flow that fills them cuts the two nodes between off from either side. -/
def channel : Network where
  edges := #[.idle 0 1 2 1, .idle 1 2 5 5, .idle 2 3 2 0]
  terminals := #[⟨5, 0⟩, ⟨0, 0⟩, ⟨0, 0⟩, ⟨0, 5⟩]

theorem channel_admissible : channel.Admissible (.signed 8) :=
  ⟨⟨by decide, by decide, by decide, by decide, by decide, by decide⟩, by decide, by decide,
    by decide +kernel⟩

section

variable {r : Register} {N : Network} {bits : Nat} {s : Search}

/-- **After every solve** of an admissible network, the first one or a later one, the two trees are
what can be reached over the residual network. -/
theorem trees_reachExactly (hr : r.IsMachine bits) (hN : N.Admissible r) (hs : SearchOf r N s) :
    ∃ s' as, s.solve r = .ok (s', as) ∧ s'.ReachExactly N := by
  obtain ⟨s', as, hok, hcomplete, -⟩ := hs.exists_solve hr.keeps hN.toWellFormed (hN.fits hr)
  exact ⟨s', as, hok, hcomplete.reachExactly hN.toWellFormed⟩

/-- After two solves of the channel the source reaches its entrance, the exit reaches the sink, and
the two nodes between are free. -/
theorem trees_reachExactly_channel :
    ∃ s s' as, SearchOf (.signed 8) channel s ∧ s.solve (.signed 8) = .ok (s', as) ∧
      s'.ReachExactly channel ∧ s'.residual.FromSource 0 ∧ s'.residual.ToSink 3 ∧
        ∀ u ∈ [1, 2], ¬ s'.residual.FromSource u ∧ ¬ s'.residual.ToSink u := by
  have hrun : (Search.ofNetwork (.signed 8) channel true >>= Search.solve (.signed 8) >>=
      fun p => p.1.solve (.signed 8)).map (fun p => p.1.forest.labels) =
        .ok #[some (.root .source), none, none, some (.root .sink)] := by decide +kernel
  obtain ⟨⟨s', as⟩, hsolve, hlabels⟩ := map_eq_ok_iff.1 hrun
  obtain ⟨⟨s, bs⟩, hfirst, hsolve⟩ := bind_eq_ok_iff.1 hsolve
  obtain ⟨s₀, hnew, hfirst⟩ := bind_eq_ok_iff.1 hfirst
  have hs : SearchOf (.signed 8) channel s := .solved (.new hnew) hfirst
  obtain ⟨s'', bs, hok, hreach⟩ := trees_reachExactly ⟨by decide, Or.inl rfl⟩ channel_admissible hs
  obtain ⟨rfl, rfl⟩ := Prod.mk.inj (Except.ok.inj (hok.symm.trans hsolve))
  refine ⟨s, s'', bs, hs, hok, hreach, (hreach.source_iff 0 (by decide)).1 ?_,
    (hreach.sink_iff 3 (by decide)).1 ?_, ?_⟩
  · exact ⟨.root .source, by rw [hlabels]; rfl, rfl, rfl⟩
  · exact ⟨.root .sink, by rw [hlabels]; rfl, rfl, rfl⟩
  · intro u hu
    rcases List.mem_pair.1 hu with rfl | rfl
    · exact (hreach.free_iff 1 (by decide)).1 (by rw [Search.IsFree, hlabels]; rfl)
    · exact (hreach.free_iff 2 (by decide)).1 (by rw [Search.IsFree, hlabels]; rfl)

end

end MinCut
