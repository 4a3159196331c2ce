/-
# Time orders the trees

Depths go stale: they are not measured again below a node that is hung elsewhere, and an orphan
that looks for a parent measures the ways that it walks and no others.  Yet between any two steps
of a solve a parent was measured later than its children, or at the same time and at a lesser
depth, whether the parent waits for another one itself or not.  The order is what a growing node
relies on when it takes over a node of its own tree: the two labels that it compares may both be
stale, but the node taken over cannot lie above the one that takes it, and is no root.

Key facts:
* `Sound.timeOrdered` : a sound and ordered forest is ordered by time;
* `TimeOrdered.of_untouched` : the pushes of an augmentation keep the order;
* `Scanning.takesOver` : a node that grows takes over no node above it;
* `boundaries_timeOrdered` : all this between any two steps of any solve.
-/
import MinCut.Proofs.Boundaries
import MinCut.Proofs.ForestAtHeads

namespace MinCut

namespace Forest

variable {R : Residual} {t : ArcTable} {f f' : Forest} {i u : Nat} {l : Label} {a : ArcRef}
variable {leaving held : Option Nat} {side : Segment} {as bs : List ArcRef}

/-! ## The order -/

/-- **Time orders a forest**: the parent of a node was measured no earlier, and if not later, then
less deep; roots have depth one, and no measurement lies in the future.  While a node leaves its
tree, its children still hang on it. -/
structure TimeOrdered (t : ArcTable) (leaving : Option Nat) (f : Forest) : Prop where
  via : ∀ (c : Nat) (l : Label) (a : ArcRef), f.labels[c]? = some (some l) → l.parent = .via a →
    ∃ p, t.head a = .ok p ∧ (leaving = some p ∨ ∃ m : Label, f.labels[p]? = some (some m) ∧
      l.stamp ≤ m.stamp ∧ (l.stamp = m.stamp → m.depth < l.depth))
  root : ∀ (c : Nat) (l : Label), f.labels[c]? = some (some l) → l.parent = .root → l.depth = 1
  depth_pos : ∀ (c : Nat) (l : Label), f.labels[c]? = some (some l) → 1 ≤ l.depth
  stamp_le : ∀ (c : Nat) (l : Label), f.labels[c]? = some (some l) → l.stamp ≤ f.clock

/-- An ordered forest in which no parent is free, one node apart, is ordered by time. -/
theorem Ordered.timeOrdered (h : f.Ordered t)
    (hvia : ∀ c l a, f.label c = some l → l.parent = .via a →
      ∃ p, t.Leads a c p ∧ (leaving = some p ∨ ∃ m, f.label p = some m)) :
    f.TimeOrdered t leaving where
  via c l a hl hp := by
    have hc := label_eq_some_iff.2 hl
    obtain ⟨p, ha, hleaving | ⟨m, hm⟩⟩ := hvia c l a hc hp
    · exact ⟨p, ha.head_eq, Or.inl hleaving⟩
    · have hnear := h.nearer c l a p m hc hp ha hm
      unfold Label.Nearer at hnear
      exact ⟨p, ha.head_eq, Or.inr ⟨m, getElem?_labels hm, by omega, by omega⟩⟩
  root c l hl hp := h.root_depth c l (label_eq_some_iff.2 hl) hp
  depth_pos c l hl := h.depth_pos c l (label_eq_some_iff.2 hl)
  stamp_le c l hl := h.stamp_le c l (label_eq_some_iff.2 hl)

/-- **A sound and ordered forest** is ordered by time. -/
theorem Sound.timeOrdered (hs : f.Sound R) (ho : f.Ordered R.arcs) :
    f.TimeOrdered R.arcs none :=
  ho.timeOrdered fun c l a hl hp => by
    obtain ⟨p, m, ha, hm, -⟩ := hs.hung c l a hl hp
    exact ⟨p, ha, Or.inr ⟨m, hm⟩⟩

/-- **While a node leaves its tree**, the others are ordered by time. -/
theorem Releasing.timeOrdered (h : Releasing R held u side as bs f) :
    f.TimeOrdered R.arcs (some u) :=
  h.ordered.timeOrdered fun c l a hl hp => by
    obtain ⟨p, ha, -, ⟨m, hm, -⟩ | ⟨hpu, -⟩⟩ := h.hung c l a hl hp
    · exact ⟨p, ha, Or.inr ⟨m, hm⟩⟩
    · exact ⟨p, ha, Or.inl (by rw [hpu])⟩

/-! ## Pushes -/

/-- **Pushes keep the order**, for they leave all measurements alone and give no node a parent. -/
theorem TimeOrdered.of_untouched {s s' : Search} {us : List Nat}
    (h : s.forest.TimeOrdered s.residual.arcs leaving) (hs : s.Untouched us s') :
    s'.forest.TimeOrdered s'.residual.arcs leaving := by
  have hold : ∀ (c : Nat) (l : Label), s'.forest.labels[c]? = some (some l) →
      ∃ k : Label, s.forest.labels[c]? = some (some k) ∧ k.stamp = l.stamp ∧ k.depth = l.depth ∧
        (l.parent ≠ .orphan → l = k) := by
    intro c l hl
    rcases hs.label_eq_or c with hc | hc
    · rw [label_eq_some_iff.2 hl] at hc
      exact ⟨l, getElem?_labels hc.symm, rfl, rfl, fun _ => rfl⟩
    · rw [label_eq_some_iff.2 hl] at hc
      obtain ⟨k, hk, rfl⟩ := Option.map_eq_some_iff.1 hc.symm
      exact ⟨k, getElem?_labels hk, rfl, rfl, fun hp => absurd rfl hp⟩
  have hstay : ∀ (p : Nat) (m : Label), s.forest.labels[p]? = some (some m) →
      ∃ k : Label, s'.forest.labels[p]? = some (some k) ∧ k.stamp = m.stamp ∧
        k.depth = m.depth := by
    intro p m hm
    rcases hs.label_eq_or p with hp | hp
    · exact ⟨m, getElem?_labels (hp.trans (label_eq_some_iff.2 hm)), rfl, rfl⟩
    · rw [label_eq_some_iff.2 hm] at hp
      exact ⟨m.orphaned, getElem?_labels hp, rfl, rfl⟩
  refine ⟨?_, ?_, ?_, ?_⟩
  · intro c l a hl hp
    obtain ⟨k, hk, -, -, heq⟩ := hold c l hl
    obtain rfl := heq (by simp [hp])
    obtain ⟨p, ha, hleaving | ⟨m, hm, hstamp, hdepth⟩⟩ := h.via c l a hk hp
    · exact ⟨p, by rw [hs.sameShape.head_eq, ha], Or.inl hleaving⟩
    · obtain ⟨k, hk', hs', hd'⟩ := hstay p m hm
      exact ⟨p, by rw [hs.sameShape.head_eq, ha], Or.inr ⟨k, hk', by omega, by omega⟩⟩
  · intro c l hl hp
    obtain ⟨k, hk, -, -, heq⟩ := hold c l hl
    obtain rfl := heq (by simp [hp])
    exact h.root c l hk hp
  · intro c l hl
    obtain ⟨k, hk, -, hd, -⟩ := hold c l hl
    rw [← hd]
    exact h.depth_pos c k hk
  · intro c l hl
    obtain ⟨k, hk, hstamp, -⟩ := hold c l hl
    rw [← hstamp, hs.clock_eq]
    exact h.stamp_le c k hk

/-! ## Taking over a node -/

/-- Looking along the arc `a`, the node `i` labelled `l` leaves every node of a tree as it is, or
**takes it over**: the node that the arc leads to then hangs on `i` by the sister of the arc, was
no root, and is not at or above `i`. -/
structure TakesOver (t : ArcTable) (i : Nat) (l : Label) (a : ArcRef) (f f' : Forest) : Prop where
  eq_or : ∀ (j : Nat) (m : Label), f.labels[j]? = some (some m) →
    f'.labels[j]? = some (some m) ∨ t.head a = .ok j ∧ t.head a.sister = .ok i ∧
      f'.labels[j]? = some (some (l.child a.sister))
  not_above : ∀ (j : Nat) (m : Label), f.labels[j]? = some (some m) →
    f'.labels[j]? = some (some (l.child a.sister)) → m.parent ≠ .root ∧ ¬ f.AtOrAbove t i j

/-- Growing to the node `j` leaves all labels as they are, or makes `j` a child, which was free or
looked no nearer. -/
theorem labels_of_growTo {o : Option Meeting} {reparent : Bool} {j : Nat}
    (hok : f.growTo reparent i l a j = .ok (f', o)) : f'.labels = f.labels ∨
      j < f.labels.size ∧ f'.labels = (f.setLabel j (some (l.child a.sister))).labels ∧
        ∀ m, f.label j = some m → m.stamp ≤ l.stamp ∧ l.depth < m.depth := by
  obtain ⟨k, hk, hok⟩ := bind_eq_ok_iff.1 hok
  have hj := fetch_eq_ok_iff.1 hk
  have hlt : j < f.labels.size := (Array.getElem?_eq_some_iff.1 hj).1
  cases k with
  | none =>
    obtain ⟨g, hg, hok⟩ := bind_eq_ok_iff.1 hok
    obtain ⟨rfl, -⟩ := Prod.mk.inj (Except.ok.inj hok)
    refine Or.inr ⟨hlt, labels_of_activate hg, fun m hm => ?_⟩
    rw [label_eq_some_iff, hj] at hm
    cases hm
  | some k =>
    simp only at hok
    split at hok
    · obtain ⟨rfl, -⟩ := Prod.mk.inj (Except.ok.inj hok)
      exact Or.inl rfl
    · split at hok
      · rename_i hcond
        obtain ⟨rfl, -⟩ := Prod.mk.inj (Except.ok.inj hok)
        refine Or.inr ⟨hlt, rfl, fun m hm => ?_⟩
        rw [label_eq_some_iff, hj] at hm
        cases hm
        exact hcond.2
      · obtain ⟨rfl, -⟩ := Prod.mk.inj (Except.ok.inj hok)
        exact Or.inl rfl

/-- What the scan of one arc does to a node of a tree. -/
theorem growAlong_eq_or {o : Option Meeting} {reparent : Bool} {j w : Nat} {m : Label}
    (ha : t.Leads a i j) (hok : growAlong t reparent i l f a = .ok (f', o))
    (hm : f.label w = some m) : f'.label w = some m ∨ w = j ∧
      f'.label w = some (l.child a.sister) ∧ m.stamp ≤ l.stamp ∧ l.depth < m.depth := by
  obtain ⟨capacity, -, hok⟩ := bind_eq_ok_iff.1 hok
  split at hok
  · obtain ⟨rfl, -⟩ := Prod.mk.inj (Except.ok.inj hok)
    exact Or.inl hm
  · obtain ⟨j', hj, hok⟩ := bind_eq_ok_iff.1 hok
    obtain rfl := Except.ok.inj (ha.head_eq.symm.trans hj)
    rcases labels_of_growTo hok with hsame | ⟨hlt, hset, hlater⟩
    · exact Or.inl (by rw [label_congr hsame, hm])
    · by_cases hjw : j = w
      · subst hjw
        exact Or.inr ⟨rfl, by rw [label_congr hset, label_setLabel hlt, if_pos rfl], hlater m hm⟩
      · exact Or.inl (by rw [label_congr hset, label_setLabel hlt, if_neg hjw, hm])

/-- **A node that looks no nearer is no root and lies not above**, for the parents of a node look
nearer, and roots have depth one. -/
theorem Scanning.not_atOrAbove {m : Label} {j : Nat} (h : f.Scanning R i l)
    (hj : f.label j = some m) (hstamp : m.stamp ≤ l.stamp) (hdepth : l.depth < m.depth) :
    m.parent ≠ .root ∧ ¬ f.AtOrAbove R.arcs i j := by
  constructor
  · intro hroot
    have hone := h.ordered.root_depth j m hj hroot
    have hpos := h.ordered.depth_pos i l h.label_eq
    omega
  · intro habove
    obtain ⟨p, hp⟩ := exists_climbs h.sound h.ordered h.label_eq
    rcases hp.nearer h.ordered h.label_eq j (hp.mem_of_atOrAbove habove) m hj with rfl | hnear
    · have heq := h.label_eq
      rw [hj] at heq
      cases heq
      omega
    · unfold Label.Nearer at hnear
      omega

/-- **One arc** around a node that grows. -/
theorem Scanning.takesOver {o : Option Meeting} {reparent : Bool} {j : Nat}
    (h : f.Scanning R i l) (ha : R.arcs.Leads a i j)
    (hok : growAlong R.arcs reparent i l f a = .ok (f', o)) : TakesOver R.arcs i l a f f' where
  eq_or w m hm := by
    rcases growAlong_eq_or ha hok (label_eq_some_iff.2 hm) with hw | ⟨rfl, hw, -⟩
    · exact Or.inl (getElem?_labels hw)
    · exact Or.inr ⟨ha.head_eq, ha.sister.head_eq, getElem?_labels hw⟩
  not_above w m hm hw := by
    have hm' := label_eq_some_iff.2 hm
    rcases growAlong_eq_or ha hok hm' with hstay | ⟨-, -, hstamp, hdepth⟩
    · -- the node hung on `i` by this arc before, as it was measured below `i`
      rw [label_eq_some_iff.2 hw] at hstay
      cases hstay
      exact h.not_atOrAbove hm' (Nat.le_refl _) (Nat.lt_succ_self _)
    · exact h.not_atOrAbove hm' hstamp hdepth

end Forest

/-! ## Every boundary of every solve -/

variable {r : Register} {N : Network} {bits : Nat}

/-- **Time orders the trees** between any two steps of any solve of an admissible network.  So the
takeover of nodes within a tree makes no cycle: a node that grows takes over no node that is at or
above it, and no root. -/
theorem boundaries_timeOrdered (hr : r.IsMachine bits) (hN : N.Admissible r) :
    (∀ t f, AtBoundary r N t f → f.TimeOrdered t none) ∧
    (∀ i s u f, AtRelease r N i s u f → f.TimeOrdered s.residual.arcs (some u)) ∧
    ∀ x i l a bs f f' o, AtScan r N x i l (a :: bs) f →
      Forest.growAlong x.search.residual.arcs x.search.reparent i l f a = .ok (f', o) →
        Forest.TakesOver x.search.residual.arcs i l a f f' := by
  have hk := hr.keeps
  have hwf := hN.toWellFormed
  have hm := hN.fits hr
  refine ⟨?_, ?_, ?_⟩
  · intro t f h
    cases h with
    | head hx =>
      have hready := (hx.sound hk hwf hm).ready
      exact hready.sound.timeOrdered hready.ordered
    | scan h =>
      obtain ⟨-, hscan⟩ := h.scanning hk hwf hm
      exact hscan.sound.timeOrdered hscan.ordered
    | meeting h =>
      have hmet := h.met hk hwf hm
      exact hmet.sound.timeOrdered hmet.ordered
    | push h =>
      obtain ⟨s₀, mt, us, hmet, hus⟩ := h.untouched hk hwf hm
      exact (hmet.sound.timeOrdered hmet.ordered).of_untouched hus
    | repair h =>
      obtain ⟨-, hrep⟩ := h.repairing hk hwf hm
      exact hrep.sound.timeOrdered hrep.ordered
    | arc h =>
      obtain ⟨-, hseek⟩ := h.seeking hk hwf hm
      exact hseek.sound.timeOrdered hseek.ordered
  · intro i s u f h
    obtain ⟨side, as, hrel⟩ := h.releasing hk hwf hm
    exact hrel.timeOrdered
  · intro x i l a bs f f' o h hok
    obtain ⟨hb, hscan⟩ := h.scanning hk hwf hm
    obtain ⟨-, g, as, -, -, haround, -⟩ := h
    have hi := hscan.sound.lt_numNodes hb.toWithin hscan.label_eq
    have hmem : a ∈ as ++ a :: bs := by simp
    rw [← Except.ok.inj ((hb.arcs.around_eq i hi).symm.trans haround)] at hmem
    obtain ⟨j, ha, -⟩ := hb.arcs.mem_around.1 hmem
    exact hscan.takesOver ha hok

/-- Two ways lead from node 0 to node 3, which node 1 claims first. -/
def diamond : Network where
  edges := #[.idle 0 1 1 0, .idle 0 2 1 0, .idle 1 3 1 0, .idle 2 3 1 0]
  terminals := #[⟨1, 0⟩, ⟨0, 0⟩, ⟨0, 0⟩, ⟨0, 0⟩]

theorem diamond_admissible : diamond.Admissible (.signed 8) :=
  ⟨⟨by decide, by decide, by decide, by decide, by decide, by decide⟩, by decide, by decide,
    by decide +kernel⟩

/-- Node 2 takes node 3 over from node 1. -/
theorem boundaries_timeOrdered_diamond : ∃ x l a f f' o, AtScan (.signed 8) diamond x 2 l [a] f ∧
    Forest.growAlong x.search.residual.arcs x.search.reparent 2 l f a = .ok (f', o) ∧
      f.labels[3]? = some (some ⟨.source, .via ⟨2, .reverse⟩, 0, 3⟩) ∧
        f'.labels[3]? = some (some ⟨.source, .via ⟨3, .reverse⟩, 0, 3⟩) ∧
          f.TimeOrdered x.search.residual.arcs none ∧
            ¬ f.AtOrAbove x.search.residual.arcs 2 3 := by
  obtain ⟨x, hx, heval⟩ := exists_atHead_of_headAfter (r := .signed 8) (N := diamond) true 2
    (p := fun x => do
      let c ← x.search.forest.choose x.held
      let arcs ← x.search.residual.arcs.around 2
      let l : Label := ⟨.source, .via ⟨1, .reverse⟩, 0, 2⟩
      let y ← Forest.growAll x.search.residual.arcs x.search.reparent 2 l c.2 [⟨1, .reverse⟩]
      let z ← Forest.growAlong x.search.residual.arcs x.search.reparent 2 l y.1 ⟨3, .forward⟩
      return decide (c.1 = some 2 ∧ c.2.labels[2]? = some (some l) ∧
        arcs = [ArcRef.mk 1 .reverse] ++ [ArcRef.mk 3 .forward] ∧ y.2 = none ∧
        y.1.labels[3]? = some (some (Label.mk .source (.via ⟨2, .reverse⟩) 0 3)) ∧
        z.1.labels[3]? = some (some (Label.mk .source (.via ⟨3, .reverse⟩) 0 3))))
    (b := .ok true) (by decide +kernel)
  obtain ⟨⟨o, g⟩, hchoose, heval⟩ := bind_eq_ok_iff.1 heval
  obtain ⟨arcs, haround, heval⟩ := bind_eq_ok_iff.1 heval
  obtain ⟨⟨f, m⟩, hgrow, heval⟩ := bind_eq_ok_iff.1 heval
  obtain ⟨⟨f', o'⟩, halong, heval⟩ := bind_eq_ok_iff.1 heval
  obtain ⟨rfl, hl, rfl, rfl, hf, hf'⟩ := of_decide_eq_true (Except.ok.inj heval)
  have hscan : AtScan (.signed 8) diamond x 2 _ [⟨3, .forward⟩] f :=
    ⟨hx, g, _, hchoose, hl, haround, hgrow⟩
  obtain ⟨hordered, -, htakes⟩ :=
    boundaries_timeOrdered (r := .signed 8) ⟨by decide, Or.inl rfl⟩ diamond_admissible
  exact ⟨x, _, _, f, f', o', hscan, halong, hf, hf', hordered _ f (.scan hscan),
    ((htakes _ _ _ _ _ _ _ _ hscan halong).not_above 3 _ hf hf').2⟩

end MinCut
