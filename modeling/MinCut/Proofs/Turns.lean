/-
# Turns of the loop

Every passage through the loop keeps its invariant: the residual network is balanced and the
forest is ready.  A passage without augmentation uses up a node that waits or that is held, or
it is the last one; an augmentation uses up supply.  So a number that is known beforehand
bounds the passages.

Key facts:
* `hold_spec` and `Met.augment` : the search before and after an augmentation;
* `turn_cases` : what a passage can do;
* `turn_spec` : a passage succeeds and keeps the invariant;
* `finish_spec` : the loop ends within what remains to be used up, by induction on that;
* `solve_spec` : a search ends with a complete forest over a balanced residual network.
-/
import MinCut.Search.Run
import MinCut.Proofs.Adopting
import MinCut.Proofs.Augmenting
import MinCut.Proofs.Planting

namespace MinCut

namespace Search

variable {N : Network} {m : Int} {s s' : Search} {i : Nat} {l : Label} {mt : Meeting}

/-! ## Accounts -/

/-- The search has augmented `as` on the way from `s` to `s'`, and nothing else changed the flow
and the counters. -/
structure Accounts (N : Network) (s s' : Search) (as : List Augmentation) : Prop where
  reparent_eq : s'.reparent = s.reparent
  flow_eq : s'.residual.flow = s.residual.flow + (as.map Augmentation.bottleneck).sum
  bottleneck_pos : ∀ a ∈ as, 0 < a.bottleneck
  augmentations_eq : s'.augmentations = s.augmentations + as.length
  adoptions_le : s'.adoptions ≤ s.adoptions + N.numNodes * as.length

theorem Accounts.trans {s'' : Search} {as bs : List Augmentation} (h : s.Accounts N s' as)
    (h' : s'.Accounts N s'' bs) : s.Accounts N s'' (as ++ bs) where
  reparent_eq := h'.reparent_eq.trans h.reparent_eq
  flow_eq := by
    rw [h'.flow_eq, h.flow_eq, List.map_append, List.sum_append, Int.add_assoc]
  bottleneck_pos a ha := (List.mem_append.1 ha).elim (h.bottleneck_pos a) (h'.bottleneck_pos a)
  augmentations_eq := by
    rw [h'.augmentations_eq, h.augmentations_eq, List.length_append, Nat.add_assoc]
  adoptions_le := by
    have h₁ := h.adoptions_le
    have h₂ := h'.adoptions_le
    rw [List.length_append, Nat.mul_add]
    omega

/-- The search with another forest has augmented nothing. -/
theorem accounts_nil (N : Network) (s : Search) (f : Forest) :
    s.Accounts N { s with forest := f } [] :=
  ⟨rfl, by simp, by simp, rfl, by simp⟩

/-! ## The supply -/

/-- What the source can still send, as a natural number and as a sum over the network. -/
theorem supply_eq (h : s.residual.excess.size = N.numNodes) :
    (s.supply : Int) = s.residual.supply N := by
  have hlist : ∀ xs : List Int, ((xs.foldr (fun x n => x.toNat + n) 0 : Nat) : Int) =
      (xs.map fun x => max x 0).foldr (fun x s => x + s) 0 := by
    intro xs
    induction xs with
    | nil => rfl
    | cons x xs ih =>
      rw [List.foldr_cons, List.map_cons, List.foldr_cons, ← ih]
      omega
  have hnodes : N.terminals.toList.zipIdx.map (fun p => max (s.residual.excessAt p.2) 0) =
      s.residual.excess.toList.map fun x => max x 0 := by
    apply List.ext_getElem
    · simp [h, Network.numNodes]
    · intro k h₁ h₂
      have hk : k < s.residual.excess.size := by simpa using h₂
      simp [Residual.excessAt, hk]
  unfold supply Residual.supply Network.nodeSum
  rw [hlist, ← hnodes, List.foldr_map]

/-! ## Meetings -/

/-- **A search that is about to augment**: the trees have met, and the node that found the meeting
is held. -/
structure Met (N : Network) (held : Option Nat) (mt : Meeting) (s : Search) : Prop
    extends s.Pushing N held where
  balances : s.residual.Balances N
  settled : s.forest.Settled
  joins : s.forest.Joins s.residual mt
  tracks : s.forest.active.Tracks s.forest.labels.size held
  stamp_lt : ∀ u k, s.forest.label u = some k → k.stamp < s.forest.clock

/-- Holding the node that has found a meeting. -/
theorem hold_spec (hb : s.residual.Balances N) (hs : s.forest.Scanning s.residual i l)
    (ho : s.forest.orphans.order = [])
    (hstamp : ∀ u k, s.forest.label u = some k → k.stamp < s.forest.clock)
    (hj : s.forest.Joins s.residual mt) :
    ∃ f, s.forest.mark i true = .ok f ∧ Met N (some i) mt { s with forest := f } := by
  have hi : i < s.forest.labels.size := Forest.lt_of_label hs.label_eq
  obtain ⟨q, hq, ht, hw⟩ := hs.tracks.hold_ok hi hs.not_mem
  have hlisted := hs.settled.listed ho
  refine ⟨{ s.forest with active := q }, ?_, ⟨hb.toWithin, hs.sound.of_labels rfl,
    hs.ordered.of_labels rfl (Nat.le_refl _), hlisted.of_labels rfl rfl, ?_⟩, hb,
    hs.settled.of_labels rfl, ⟨hj.source_label, hj.sink_label, hj.leads, hj.capacity_pos⟩, ht,
    hstamp⟩
  · simp only [Forest.mark, hq, bind, Except.bind, pure, Except.pure]
  · intro u hu hspared
    have hu' : u ∉ q.waiting := hu
    rw [hw] at hu'
    exact (hs.watched u hu' hspared).of_labels rfl

/-- **An augmentation** leaves a forest between two orphans of a phase. -/
theorem Met.augment (hN : N.WellFormed) (hm : N.Fits m) {held : Option Nat}
    (h : s.Met N held mt) :
    ∃ s' x, 0 < x ∧ s.Augmented N held x s' ∧ s'.forest.Repairing s'.residual held ∧
      ∀ r : Register, r.Keeps m → s.augment r mt = .ok (s', ⟨x, mt.sourceEnd, mt.sinkEnd⟩) := by
  obtain ⟨s', x, hx, haug, hok⟩ := augment_spec hN hm h.toPushing h.settled h.balances h.joins
  have hsteady := haug.steady
  -- all measurements are older than this phase
  have hexact : s'.forest.Exact s'.residual.arcs := by
    intro u k hk hks
    have hclock : s'.forest.clock = s.forest.clock := hsteady.clock_eq
    rcases hsteady.label_eq_or u with h₁ | h₁
    · have hk' : s.forest.label u = some k := h₁.symm.trans hk
      have hlt := h.stamp_lt u k hk'
      omega
    · obtain ⟨k', hk', rfl⟩ := Option.map_eq_some_iff.1 (h₁.symm.trans hk)
      have hlt := h.stamp_lt u k' hk'
      have hks' : k'.stamp = s'.forest.clock := hks
      omega
  have htracks : s'.forest.active.Tracks s'.forest.labels.size held := by
    rw [show s'.forest.active = s.forest.active from hsteady.active_eq,
      show s'.forest.labels.size = s.forest.labels.size from hsteady.size_eq]
    exact h.tracks
  exact ⟨s', x, hx, haug, ⟨haug.sound, haug.ordered, hexact, haug.listed, htracks, haug.watched⟩,
    hok⟩

/-- **A meeting** is augmented and the forest repaired; the node that found it is held. -/
theorem meet_spec (hN : N.WellFormed) (hm : N.Fits m) (hb : s.residual.Balances N)
    (hs : s.forest.Scanning s.residual i l) (ho : s.forest.orphans.order = [])
    (hstamp : ∀ u k, s.forest.label u = some k → k.stamp < s.forest.clock)
    (hj : s.forest.Joins s.residual mt) :
    ∃ s' a, (∀ r : Register, r.Keeps m → s.meet r i mt = .ok (⟨s', some i⟩, a)) ∧
      s'.residual.Balances N ∧ s'.forest.Ready s'.residual (some i) ∧ s.Accounts N s' [a] := by
  obtain ⟨g, hmark, hmet⟩ := hold_spec hb hs ho hstamp hj
  obtain ⟨s₁, x, hx, haug, hrep, hok⟩ := hmet.augment hN hm
  obtain ⟨f, c, hadopt, hready, -, hc⟩ := Forest.adopt_spec hN haug.within hrep
  refine ⟨{ s₁ with forest := f, adoptions := s₁.adoptions + c }, ⟨x, mt.sourceEnd, mt.sinkEnd⟩, ?_,
    haug.balances, hready, haug.steady.reparent_eq, ?_, ?_, haug.augmentations_eq, ?_⟩
  · intro r hr
    simp only [meet, hmark, hok r hr, repair, hadopt, bind, Except.bind, pure, Except.pure]
  · simpa using haug.flow_eq
  · intro a ha
    obtain rfl : a = _ := List.mem_singleton.1 ha
    exact hx
  · show s₁.adoptions + c ≤ _
    have hadoptions : s₁.adoptions = s.adoptions := haug.steady.adoptions_eq
    have hsize := haug.sound.size_labels haug.within
    rw [List.length_singleton, Nat.mul_one]
    omega

/-! ## Complete searches -/

/-- **What a search comes to**: a forest in which no node can grow, over a balanced residual
network. -/
structure Complete (N : Network) (s : Search) : Prop where
  balances : s.residual.Balances N
  sound : s.forest.Sound s.residual
  ordered : s.forest.Ordered s.residual.arcs
  settled : s.forest.Settled
  exhausted : ∀ u, s.forest.Exhausted s.residual u

end Search

namespace Run

variable {N : Network} {m : Int} {x y : Run}

/-! ## One turn -/

/-- **What a turn can do**: it finds no node to take up, or lets one grow that finds no meeting, or
augments the path through the meeting that a node has found. -/
theorem turn_cases {r : Register} {t : Turn} (h : x.turn r = .ok t) :
    (∃ f, x.search.forest.choose x.held = .ok (none, f) ∧
      t = .finished { x.search with forest := f }) ∨
    ∃ i f g, x.search.forest.choose x.held = .ok (some i, f) ∧
      ((f.grow x.search.residual.arcs x.search.reparent i = .ok (g, none) ∧
        t = .next ⟨{ x.search with forest := g }, none⟩ none) ∨
      ∃ mt y a, f.grow x.search.residual.arcs x.search.reparent i = .ok (g, some mt) ∧
        Search.meet r { x.search with forest := g } i mt = .ok (y, a) ∧
          t = .next y (some a)) := by
  unfold turn at h
  obtain ⟨⟨chosen, f⟩, hchoose, h⟩ := bind_eq_ok_iff.1 h
  cases chosen with
  | none => exact .inl ⟨f, hchoose, (Except.ok.inj h).symm⟩
  | some i =>
    obtain ⟨⟨g, meeting⟩, hgrow, h⟩ := bind_eq_ok_iff.1 h
    refine .inr ⟨i, f, g, hchoose, ?_⟩
    cases meeting with
    | none => exact .inl ⟨hgrow, (Except.ok.inj h).symm⟩
    | some mt =>
      obtain ⟨⟨y, a⟩, hmeet, h⟩ := bind_eq_ok_iff.1 h
      exact .inr ⟨mt, y, a, hgrow, hmeet, (Except.ok.inj h).symm⟩

/-- **The invariant of the loop.** -/
structure Sound (N : Network) (x : Run) : Prop where
  balances : x.search.residual.Balances N
  ready : x.search.forest.Ready x.search.residual x.held

/-- What the turns to come can use up. -/
def remaining (x : Run) : Nat :=
  x.search.supply * (2 * x.search.residual.excess.size + 2) + x.search.forest.potential +
    x.held.toList.length

/-- What a turn that is not the last one leads to. -/
structure Proceeds (N : Network) (x y : Run) (a : Option Augmentation) : Prop where
  sound : y.Sound N
  remaining_lt : y.remaining < x.remaining
  accounts : x.search.Accounts N y.search a.toList

/-- An augmentation uses up more than a forest can put back. -/
theorem remaining_lt_of_supply_lt
    (hsize : y.search.residual.excess.size = x.search.residual.excess.size)
    (hforest : y.search.forest.labels.size = y.search.residual.excess.size)
    (hsupply : y.search.supply < x.search.supply) : y.remaining < x.remaining := by
  have hpotential := y.search.forest.potential_le_two_mul
  have hheld : y.held.toList.length ≤ 1 := by cases y.held <;> simp
  have hmul := Nat.mul_le_mul_right (2 * x.search.residual.excess.size + 2) hsupply
  rw [Nat.succ_mul] at hmul
  unfold remaining
  rw [hsize]
  omega

/-- **One turn** succeeds; it is the last one, or it keeps the invariant and uses something
up. -/
theorem turn_spec (hN : N.WellFormed) (hm : N.Fits m) (h : x.Sound N) :
    (∃ s, (∀ r : Register, r.Keeps m → x.turn r = .ok (.finished s)) ∧ s.Complete N ∧
      x.search.Accounts N s []) ∨
    ∃ y a, (∀ r : Register, r.Keeps m → x.turn r = .ok (.next y a)) ∧ x.Proceeds N y a := by
  obtain ⟨o, f, hf, hch, hres, hpot⟩ := Forest.choose_spec h.ready
  have hsound := h.ready.sound.of_labels hch.labels_eq
  have hordered := h.ready.ordered.of_labels hch.labels_eq (Nat.le_of_eq hch.clock_eq.symm)
  have hsettled := h.ready.settled.of_labels hch.labels_eq
  cases o with
  | none =>
    left
    obtain ⟨hnil, -, hwatched⟩ := hres
    refine ⟨{ x.search with forest := f }, fun r _ => ?_, ⟨h.balances, hsound, hordered, hsettled,
      fun u => hwatched u (by rw [hnil]; simp) (by simp)⟩, Search.accounts_nil N _ f⟩
    simp only [turn, hf, bind, Except.bind, pure, Except.pure]
  | some i =>
    right
    obtain ⟨l, hscan⟩ := hres
    obtain ⟨g, om, hg, hgrown, hom⟩ :=
      Forest.grow_spec hN h.balances.toWithin hscan x.search.reparent
    have hpot' := hgrown.potential_le
    have hnone : g.orphans.order = [] := by
      rw [hgrown.orphans_eq, hch.orphans_eq]
      exact h.ready.listed.order_eq_nil h.ready.settled
    simp only [Option.toList_some, List.length_singleton] at hpot
    cases om with
    | none =>
      refine ⟨⟨{ x.search with forest := g }, none⟩, none, ?_, ⟨⟨h.balances, ?_⟩, ?_,
        Search.accounts_nil N _ g⟩⟩
      · intro r _
        simp only [turn, hf, hg, bind, Except.bind, pure, Except.pure]
      · have hs := hgrown.scanning
        exact ⟨hs.sound, hs.ordered, hs.settled, hs.settled.listed hnone, hs.tracks, hom⟩
      · show x.search.supply * (2 * x.search.residual.excess.size + 2) + g.potential + 0 <
          x.search.supply * (2 * x.search.residual.excess.size + 2) + _ + _
        omega
    | some mt =>
      obtain ⟨s', a, hok, hbal, hready, hacc⟩ := Search.meet_spec
        (s := { x.search with forest := g }) hN hm h.balances hgrown.scanning
        hnone hgrown.stamp_lt hom
      refine ⟨⟨s', some i⟩, some a, ?_, ⟨⟨hbal, hready⟩, ?_,
        (Search.accounts_nil N _ g).trans hacc⟩⟩
      · intro r hr
        simp only [turn, hf, hg, hok r hr, bind, Except.bind, pure, Except.pure]
      · -- the flow has grown, so less than before is left at the sources
        have hsize := hbal.size_eq.trans h.balances.size_eq.symm
        apply remaining_lt_of_supply_lt hsize hready.sound.size_eq
        have hflow : s'.residual.flow = x.search.residual.flow + a.bottleneck := by
          simpa using hacc.flow_eq
        have hpos := hacc.bottleneck_pos a (List.mem_singleton_self a)
        have htotal := h.balances.source_total
        have htotal' := hbal.source_total
        rw [← Search.supply_eq h.balances.size_eq] at htotal
        rw [← Search.supply_eq hbal.size_eq] at htotal'
        show s'.supply < x.search.supply
        omega

/-! ## The whole loop -/

/-- **The loop ends** before what remains to be used up is used up. -/
theorem finish_spec (hN : N.WellFormed) (hm : N.Fits m) (h : x.Sound N) :
    ∃ s as, (∀ r : Register, r.Keeps m → EndsWithin x.remaining (x.finish r) (s, as)) ∧
      s.Complete N ∧ x.search.Accounts N s as := by
  induction hn : x.remaining using Nat.strong_induction_on generalizing x with
  | h n ih =>
    rcases turn_spec hN hm h with ⟨s, hok, hs, hacc⟩ | ⟨y, a, hok, hy⟩
    · refine ⟨s, [], fun r hr k _ => ?_, hs, hacc⟩
      unfold finish
      simp only [hok r hr, bind, Except.bind, pure, Except.pure]
    · have hlt := hy.remaining_lt
      obtain ⟨s, as, hok', hs, hacc⟩ := ih _ (hn ▸ hlt) hy.sound rfl
      refine ⟨s, a.toList ++ as, fun r hr => ((hok' r hr).step fun k hrest => ?_).mono (by omega),
        hs, hy.accounts.trans hacc⟩
      unfold finish
      simp only [hok r hr, hrest, bind, Except.bind, pure, Except.pure]

/-- **The invariant holds at every head** of the loop. -/
theorem Reaches.sound {r : Register} (hr : r.Keeps m) (hN : N.WellFormed) (hm : N.Fits m)
    (h : x.Sound N) (hy : x.Reaches r y) : y.Sound N := by
  induction hy with
  | refl => exact h
  | step _ ht ih =>
    rcases turn_spec hN hm ih with ⟨s, hok, -, -⟩ | ⟨y', a, hok, hy'⟩
    · rw [hok r hr] at ht
      cases ht
    · rw [hok r hr] at ht
      cases ht
      exact hy'.sound

end Run

namespace Search

variable {N : Network} {m : Int} {s : Search}

/-- **A new search** exists, is the same in every register with room, and is balanced; its flow is
the sum of the smaller weights. -/
theorem ofNetwork_spec (hN : N.WellFormed) (hm : N.Fits m) :
    ∃ R : Residual, (∀ r : Register, r.Keeps m → ∀ reparent,
      ofNetwork r N reparent = .ok ⟨R, .unsearched N.numNodes, reparent, 0, 0⟩) ∧ R.Balances N ∧
        R.flow = N.nodeSum fun _ t => min t.source t.sink := by
  obtain ⟨R, hR, hb, hflow⟩ := Residual.ofNetwork_spec hN hm
  refine ⟨R, fun r hr reparent => ?_, hb, hflow⟩
  simp only [ofNetwork, hR r hr, bind, Except.bind, pure, Except.pure]

/-- The loop begins with a freshly planted forest. -/
theorem restart_spec (hb : s.residual.Balances N) :
    ∃ f, s.restart = .ok { s with forest := f } ∧ Run.Sound N ⟨{ s with forest := f }, none⟩ ∧
      Run.remaining ⟨{ s with forest := f }, none⟩ ≤ Search.patience { s with forest := f } := by
  obtain ⟨f, hf, hready, hsize⟩ := Forest.ofExcess_spec s.residual
  refine ⟨f, ?_, ⟨hb, hready⟩, ?_⟩
  · simp only [restart, hf, bind, Except.bind, pure, Except.pure]
  · have hpotential := f.potential_le_two_mul
    rw [hsize] at hpotential
    show s.supply * (2 * s.residual.excess.size + 2) + f.potential + 0 ≤
      (s.supply + 1) * (2 * s.residual.excess.size + 2)
    rw [Nat.succ_mul s.supply]
    omega

/-- **A search ends** with a complete forest over a balanced residual network, and it does the
same in every register with room. -/
theorem solve_spec (hN : N.WellFormed) (hm : N.Fits m) (hb : s.residual.Balances N) :
    ∃ s' as, (∀ r : Register, r.Keeps m → s.solve r = .ok (s', as)) ∧ s'.Complete N ∧
      s.Accounts N s' as := by
  obtain ⟨f, hf, hsound, hle⟩ := restart_spec hb
  obtain ⟨s', as, hok, hs, hacc⟩ := Run.finish_spec hN hm hsound
  refine ⟨s', as, ?_, hs, ?_⟩
  · intro r hr
    have haudit := Forest.audit_eq hs.sound hs.settled
    simp only [solve, hf, hok r hr _ hle, haudit, bind, Except.bind, pure, Except.pure]
  · exact (accounts_nil N s f).trans hacc

end Search

end MinCut
