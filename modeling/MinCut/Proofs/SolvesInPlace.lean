/-
# Solves in place

A solve never changes where the rows of its arc table lie, so a row that was in bounds when the
table was built is in bounds at every later moment.  At the moments of a solve the steps that are
taken in place do what the steps of the search do, and these succeed.  So no solve of an admissible
network meets a fault.

Key facts:
* `IsLaidOut.exists_slice` : the row of every node lies within the references;
* `SearchOf.isLaidOut` and `AtRepair.isLaidOut` : the rows along the solves, by induction on what
  led there;
* `AtQueue.nextInPlace`, `AtMeeting.augmentInPlace` and `AtArc.considerInPlace` : the steps in
  place at the moments of a solve;
* `solvesInPlace` : the solves of an admissible network.
-/
import MinCut.Proofs.Counting
import MinCut.Proofs.InPlace
import MinCut.Proofs.Termination

namespace MinCut

/-! ## Rows -/

namespace ArcTable

variable {t t' : ArcTable} {N : Network} {n u : Nat} {edges : Array Edge}

/-- In a table that is laid out row by row, every row lies within the references. -/
theorem slice_ofRows {rows : Array (Array ArcRef)} (pairs : Array ArcPair) (h : u < rows.size) :
    (ofRows rows pairs).slice u = .ok (row rows u) := by
  have hmono : ((rows.toList.map Array.size).take u).sum ≤
      ((rows.toList.map Array.size).take (u + 1)).sum := by
    rw [List.take_add_one, List.sum_append]
    exact Nat.le_add_right _ _
  have hle : ((rows.toList.map Array.size).take (u + 1)).sum ≤
      (ofRows rows pairs).adjacency.size := by
    have hsplit := List.sum_take_add_sum_drop (rows.toList.map Array.size) (u + 1)
    have hsize : (ofRows rows pairs).adjacency.size = (rows.toList.map Array.size).sum := by
      simp [ofRows, ← Array.sum_toList]
    omega
  have haround := around_ofRows pairs h
  unfold around at haround
  unfold slice
  simp only [fetch_offsets_ofRows pairs (Nat.le_of_lt h), fetch_offsets_ofRows pairs h, bind,
    Except.bind, if_pos (And.intro hmono hle)] at haround ⊢
  exact haround

/-- The table has the rows of the network and the ends of its edges, whatever flows on it. -/
def IsLaidOut (N : Network) (t : ArcTable) : Prop :=
  ∃ t₀, build N.numNodes N.edges = .ok t₀ ∧ SameShape t₀ t

theorem IsLaidOut.of_sameShape (h : t.IsLaidOut N) (h' : SameShape t t') : t'.IsLaidOut N := by
  obtain ⟨t₀, hbuild, hshape⟩ := h
  exact ⟨t₀, hbuild, hshape.trans h'⟩

/-- **The row of every node** lies within the references. -/
theorem IsLaidOut.exists_slice (h : t.IsLaidOut N) (hu : u < N.numNodes) :
    ∃ as, t.slice u = .ok as ∧ t.around u = .ok as := by
  obtain ⟨t₀, hbuild, hshape⟩ := h
  obtain ⟨rows, hrows, ht₀⟩ := bind_eq_ok_iff.1 hbuild
  obtain rfl := Except.ok.inj ht₀
  have hlt : u < rows.size := by
    rw [size_of_addEdges hrows]
    exact hu
  refine ⟨row rows u, ?_, ?_⟩
  · rw [hshape.slice_eq, slice_ofRows _ hlt]
  · rw [hshape.around_eq, around_ofRows _ hlt]

theorem IsLaidOut.numNodes_eq (h : t.IsLaidOut N) : t.numNodes = N.numNodes := by
  obtain ⟨t₀, hbuild, hshape⟩ := h
  rw [numNodes, hshape.offsets_eq, ← numNodes, numNodes_of_build hbuild]

/-- Only a node has arcs around it. -/
theorem lt_numNodes_of_around {as : List ArcRef} (h : t.around u = .ok as) : u < t.numNodes := by
  obtain ⟨first, -, hrest⟩ := bind_eq_ok_iff.1 h
  obtain ⟨last, hlast, -⟩ := bind_eq_ok_iff.1 hrest
  have hlt : u + 1 < t.offsets.size :=
    (Array.getElem?_eq_some_iff.1 (fetch_eq_ok_iff.1 hlast)).1
  exact Nat.lt_sub_of_add_lt hlt

/-- Every row that is listed lies within the references. -/
theorem IsLaidOut.slice_of_around (h : t.IsLaidOut N) {as : List ArcRef}
    (has : t.around u = .ok as) : t.slice u = .ok as := by
  have hu : u < N.numNodes := by
    rw [← h.numNodes_eq]
    exact lt_numNodes_of_around has
  obtain ⟨bs, hslice, haround⟩ := h.exists_slice hu
  rw [hslice, ← haround, has]

end ArcTable

/-! ## Rows along a solve -/

variable {r : Register} {N : Network} {m : Int} {bits : Nat} {s s' : Search} {x y : Run}
variable {f g : Forest} {mt : Meeting} {a : Augmentation} {as : List Augmentation} {i u : Nat}

/-- A repair changes the forest alone. -/
theorem Search.residual_of_repair (h : s.repair = .ok s') : s'.residual = s.residual := by
  obtain ⟨p, -, h⟩ := bind_eq_ok_iff.1 h
  obtain rfl := Except.ok.inj h
  rfl

theorem Search.residual_of_restart (h : s.restart = .ok s') : s'.residual = s.residual := by
  obtain ⟨f, -, h⟩ := bind_eq_ok_iff.1 h
  obtain rfl := Except.ok.inj h
  rfl

/-- A meeting leaves the rows, for only its augmentation touches the arcs. -/
theorem Search.sameShape_of_meet (h : s.meet r i mt = .ok (y, a)) :
    ArcTable.SameShape s.residual.arcs y.search.residual.arcs := by
  obtain ⟨f, -, h⟩ := bind_eq_ok_iff.1 h
  obtain ⟨⟨s₁, a₁⟩, haugment, h⟩ := bind_eq_ok_iff.1 h
  obtain ⟨s₂, hrepair, h⟩ := bind_eq_ok_iff.1 h
  obtain ⟨rfl, -⟩ := Prod.mk.inj (Except.ok.inj h)
  have hshape := Search.sameShape_of_augment haugment
  rw [← Search.residual_of_repair hrepair] at hshape
  exact hshape

/-- **One turn** leaves the rows. -/
theorem Run.sameShape_of_next {o : Option Augmentation} (h : x.turn r = .ok (.next y o)) :
    ArcTable.SameShape x.search.residual.arcs y.search.residual.arcs := by
  rcases turn_cases h with ⟨f, -, ⟨⟩⟩ | ⟨i, f, g, -, ⟨-, ⟨⟩⟩ | ⟨mt, y, a, -, hmeet, ⟨⟩⟩⟩
  · exact .refl _
  · exact Search.sameShape_of_meet (s := { x.search with forest := g }) hmeet

/-- Whatever is reached by turns has the same rows. -/
theorem Run.Reaches.sameShape (h : x.Reaches r y) :
    ArcTable.SameShape x.search.residual.arcs y.search.residual.arcs := by
  induction h with
  | refl => exact .refl _
  | step _ ht ih => exact ih.trans (sameShape_of_next ht)

/-- The loop ends with the last turn of a state that it reaches. -/
theorem Run.exists_reaches_of_finish {n : Nat} (h : x.finish r n = .ok (s, as)) :
    ∃ y, x.Reaches r y ∧ y.turn r = .ok (.finished s) := by
  induction n generalizing x as with
  | zero =>
    unfold finish at h
    obtain ⟨t, ht, h⟩ := bind_eq_ok_iff.1 h
    cases t with
    | finished s' =>
      cases h
      exact ⟨x, .refl, ht⟩
    | next y a => cases h
  | succ n ih =>
    unfold finish at h
    obtain ⟨t, ht, h⟩ := bind_eq_ok_iff.1 h
    cases t with
    | finished s' =>
      cases h
      exact ⟨x, .refl, ht⟩
    | next y a =>
      obtain ⟨⟨s', bs⟩, hrest, h⟩ := bind_eq_ok_iff.1 h
      obtain ⟨rfl, -⟩ := Prod.mk.inj (Except.ok.inj h)
      obtain ⟨z, hz, hlast⟩ := ih hrest
      exact ⟨z, hz.head ht, hlast⟩

/-- **Between the solves** the rows are those of the network. -/
theorem SearchOf.isLaidOut (h : SearchOf r N s) : s.residual.arcs.IsLaidOut N := by
  induction h with
  | new hs =>
    obtain ⟨R, hR, hs⟩ := bind_eq_ok_iff.1 hs
    obtain ⟨t, ht, hR⟩ := bind_eq_ok_iff.1 hR
    obtain ⟨flow, -, hR⟩ := bind_eq_ok_iff.1 hR
    obtain ⟨excess, -, hR⟩ := bind_eq_ok_iff.1 hR
    obtain rfl := Except.ok.inj hR
    obtain rfl := Except.ok.inj hs
    exact ⟨t, ht, .refl t⟩
  | solved _ hs ih =>
    obtain ⟨s₁, hrestart, hs⟩ := bind_eq_ok_iff.1 hs
    obtain ⟨⟨s₂, bs⟩, hfinish, hs⟩ := bind_eq_ok_iff.1 hs
    obtain ⟨⟨⟩, -, hs⟩ := bind_eq_ok_iff.1 hs
    obtain ⟨rfl, -⟩ := Prod.mk.inj (Except.ok.inj hs)
    obtain ⟨y, hreach, hlast⟩ := Run.exists_reaches_of_finish hfinish
    obtain ⟨f, rfl⟩ := Run.exists_forest_of_finished hlast
    have hshape := hreach.sameShape
    rw [Search.residual_of_restart hrestart] at hshape
    exact ih.of_sameShape hshape

/-- At every head of every solve the rows are those of the network. -/
theorem AtHead.isLaidOut (h : AtHead r N x) : x.search.residual.arcs.IsLaidOut N := by
  obtain ⟨s, s', hs, hrestart, hreach⟩ := h
  have hshape := hreach.sameShape
  rw [Search.residual_of_restart hrestart] at hshape
  exact hs.isLaidOut.of_sameShape hshape

theorem AtMeeting.isLaidOut (h : AtMeeting r N i mt s) : s.residual.arcs.IsLaidOut N := by
  obtain ⟨x, f, g, h, hx, -, -, -, rfl⟩ := h
  exact hx.isLaidOut

/-- Throughout every adopt phase the rows are those of the network. -/
theorem AtRepair.isLaidOut (h : AtRepair r N i s f) : s.residual.arcs.IsLaidOut N := by
  induction h with
  | start hmeet haugment =>
    exact hmeet.isLaidOut.of_sameShape (Search.sameShape_of_augment haugment)
  | settled _ _ ih => exact ih

/-! ## Steps in place at the moments of a solve -/

/-- Every node that waits has a mark when the next active node is taken up. -/
theorem AtQueue.lt_size_linked (hr : r.Keeps m) (hN : N.WellFormed) (hm : N.Fits m)
    (h : AtQueue r N f) : ∀ u ∈ f.active.waiting, u < f.active.linked.size := by
  obtain ⟨x, hx, hf⟩ := h
  have hready := (hx.sound hr hN hm).ready
  rcases hf with ⟨-, rfl⟩ | ⟨i, hheld, hmark, -⟩
  · intro u hu
    rw [hready.tracks.size_eq]
    exact hready.tracks.lt_of_mem hu
  · rw [hheld] at hready
    obtain ⟨q, hq, htracks, -⟩ := hready.letGo
    obtain rfl := Except.ok.inj (hq.symm.trans hmark)
    intro u hu
    exact htracks.size_eq ▸ htracks.lt_of_mem hu

/-- **The queue** in place. -/
theorem AtQueue.nextInPlace (hr : r.Keeps m) (hN : N.WellFormed) (hm : N.Fits m)
    (h : AtQueue r N f) : ∃ p, f.nextInPlace f.active.queue.size = .ok p ∧
      f.nextActive f.active.queue.size = .ok p := by
  obtain ⟨o, g, hok⟩ := h.nextActive hr hN hm
  have hnext := hok f.active.queue.size (Nat.le_of_eq f.active.queue.length_toList)
  exact ⟨(o, g), by rw [Forest.nextInPlace_eq (h.lt_size_linked hr hN hm), hnext], hnext⟩

/-- **An augmentation** in place. -/
theorem AtMeeting.augmentInPlace (hr : r.Keeps m) (hN : N.WellFormed) (hm : N.Fits m)
    (h : AtMeeting r N i mt s) :
    ∃ p, s.augmentInPlace r mt = .ok p ∧ s.augment r mt = .ok p := by
  have hmet := h.met hr hN hm
  obtain ⟨s', x, -, -, -, hok⟩ := hmet.augment hN hm
  exact ⟨_, hmet.augmentInPlace_eq (hok r hr), hok r hr⟩

/-- **An orphan** that looks along an arc, in place. -/
theorem AtArc.considerInPlace (hr : r.Keeps m) (hN : N.WellFormed) (hm : N.Fits m)
    (h : AtArc r N i s u g) {bs : List ArcRef} (hbs : s.residual.arcs.around u = .ok bs)
    {b : ArcRef} (hb : b ∈ bs) (side : Segment) (best : Option Forest.Candidate) :
    ∃ p, Forest.considerInPlace s.residual.arcs side g best b = .ok p ∧
      Forest.consider s.residual.arcs side g best b = .ok p := by
  obtain ⟨hbal, hseek⟩ := h.seeking hr hN hm
  obtain ⟨l, hl, -⟩ := hseek.exists_label
  have hu := hseek.sound.lt_numNodes hbal.toWithin hl
  rw [← Except.ok.inj ((hbal.arcs.around_eq u hu).symm.trans hbs)] at hb
  obtain ⟨j, hj, -⟩ := hbal.arcs.mem_around.1 hb
  have hlt : j < g.labels.size := by
    rw [hseek.sound.size_labels hbal.toWithin]
    exact (hbal.arcs.lt_of_leads hN hj).2
  exact Forest.considerInPlace_eq hseek.sound hseek.ordered hseek.exact hj hlt side best

/-! ## All solves of a network -/

/-- **No solve of the network meets a fault**, the first one or a later one.  The arc table is built
in place, every solve ends with a forest that passes the audit, and the rows of all nodes are in
bounds whenever they are read.  Taking the next active node from the queue, augmenting a path and
looking for a parent succeed in place, with the results that the search goes on with. -/
structure SolvesInPlace (r : Register) (N : Network) : Prop where
  build : ∃ t, ArcTable.layOut N.numNodes N.edges = .ok t ∧
    ArcTable.build N.numNodes N.edges = .ok t
  outset : ∀ reparent, ∃ s, Search.ofNetwork r N reparent = .ok s
  solve : ∀ s, SearchOf r N s →
    ∃ s' as, s.solve r = .ok (s', as) ∧ s'.forest.audit s'.residual = .ok ()
  rowsAtHead : ∀ x, AtHead r N x → ∀ u, u < N.numNodes →
    ∃ as, x.search.residual.arcs.slice u = .ok as ∧ x.search.residual.arcs.around u = .ok as
  rowsAtRepair : ∀ i s f, AtRepair r N i s f → ∀ u, u < N.numNodes →
    ∃ as, s.residual.arcs.slice u = .ok as ∧ s.residual.arcs.around u = .ok as
  queue : ∀ f, AtQueue r N f → ∃ p, f.nextInPlace f.active.queue.size = .ok p ∧
    f.nextActive f.active.queue.size = .ok p
  augmentation : ∀ i mt s, AtMeeting r N i mt s →
    ∃ p, s.augmentInPlace r mt = .ok p ∧ s.augment r mt = .ok p
  adoption : ∀ i s u g, AtArc r N i s u g → ∀ as, s.residual.arcs.around u = .ok as → ∀ a ∈ as,
    ∀ side best, ∃ p, Forest.considerInPlace s.residual.arcs side g best a = .ok p ∧
      Forest.consider s.residual.arcs side g best a = .ok p

/-- **The solves of an admissible network** meet no fault. -/
theorem solvesInPlace (hr : r.IsMachine bits) (hN : N.Admissible r) : SolvesInPlace r N := by
  have hk := hr.keeps
  have hm := hN.fits hr
  have hwf := hN.toWellFormed
  refine ⟨?_, ?_, ?_, ?_, ?_, ?_, ?_, ?_⟩
  · have hplaced : ∀ e ∈ N.edges, ArcTable.Placed N.numNodes e :=
      fun e he _ => ⟨hN.tail_lt e he, hN.head_lt e he⟩
    obtain ⟨t, hbuild, -⟩ := ArcTable.build_spec hplaced
    exact ⟨t, (ArcTable.layOut_eq_build _ _).trans hbuild, hbuild⟩
  · intro reparent
    obtain ⟨R, hR, -⟩ := Search.ofNetwork_spec hwf hm
    exact ⟨_, hR r hk reparent⟩
  · intro s hs
    obtain ⟨s', as, hok, hcomplete, -⟩ := hs.exists_solve hk hwf hm
    exact ⟨s', as, hok, Forest.audit_eq hcomplete.sound hcomplete.settled⟩
  · intro x hx u hu
    exact hx.isLaidOut.exists_slice hu
  · intro i s f h u hu
    exact h.isLaidOut.exists_slice hu
  · intro f hf
    exact hf.nextInPlace hk hwf hm
  · intro i mt s h
    exact h.augmentInPlace hk hwf hm
  · intro i s u g h as has a ha side best
    exact h.considerInPlace hk hwf hm has ha side best

end MinCut
