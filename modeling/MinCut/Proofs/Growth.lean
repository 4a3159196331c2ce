/-
# Growing keeps the forest sound

A node that scans the arcs around it changes the forest arc by arc.  Each step keeps the
forest sound and ordered, keeps every node of a tree in its tree, and leaves behind no arc
along which the tree could have grown.  A free node that is claimed waits to grow in turn, so
the number of waiting nodes and twice that of free nodes never rise together.

Key facts:
* `growAlong_spec` : the scan of one arc claims a node, takes one over, finds a meeting or
  does nothing;
* `growAll_spec` : the scan of a list of arcs, by induction on the list;
* `grow_spec` : a node that meets nobody is exhausted afterwards.
-/
import Mathlib.Data.Finset.Card
import MinCut.Proofs.ActiveNodes
import MinCut.Proofs.Trees

namespace MinCut

namespace Forest

variable {R : Residual} {f f' : Forest} {i j u v : Nat} {l m : Label} {a : ArcRef}

/-! ## Exhausted nodes -/

/-- Every arc along which the tree of `u` could grow from `u` leads to a node of that tree. -/
def Exhausted (R : Residual) (f : Forest) (u : Nat) : Prop :=
  ∀ l a v, f.label u = some l → R.arcs.Leads a u v →
    0 < R.arcs.capacity (treeArc l.side a.sister) → ∃ m, f.label v = some m ∧ m.side = l.side

/-- Every node of a tree that does not wait to grow is exhausted, one node apart. -/
def Watched (R : Residual) (f : Forest) (spared : Option Nat) : Prop :=
  ∀ u, u ∉ f.active.waiting → spared ≠ some u → f.Exhausted R u

/-- Every node of a tree stays in its tree. -/
def Extends (f f' : Forest) : Prop :=
  ∀ u l, f.label u = some l → ∃ m, f'.label u = some m ∧ m.side = l.side

theorem Extends.refl (f : Forest) : f.Extends f := fun _ l hl => ⟨l, hl, rfl⟩

theorem Extends.trans {g : Forest} (h : f.Extends f') (h' : f'.Extends g) : f.Extends g := by
  intro u l hl
  obtain ⟨m, hm, hs⟩ := h u l hl
  obtain ⟨k, hk, hs'⟩ := h' u m hm
  exact ⟨k, hk, hs'.trans hs⟩

/-- The nodes in neither tree. -/
def freeNodes (f : Forest) : Finset Nat :=
  (Finset.range f.labels.size).filter fun u => f.label u = none

/-- The nodes that are in neither tree or wait to grow. -/
def openNodes (f : Forest) : Finset Nat :=
  (Finset.range f.labels.size).filter fun u => f.label u = none ∨ u ∈ f.active.waiting

/-- What a turn without augmentation uses up. -/
def potential (f : Forest) : Nat := f.openNodes.card + f.freeNodes.card

theorem potential_le_two_mul (f : Forest) : f.potential ≤ 2 * f.labels.size := by
  have hopen : f.openNodes.card ≤ (Finset.range f.labels.size).card :=
    Finset.card_le_card (Finset.filter_subset _ _)
  have hfree : f.freeNodes.card ≤ (Finset.range f.labels.size).card :=
    Finset.card_le_card (Finset.filter_subset _ _)
  rw [Finset.card_range] at hopen hfree
  unfold potential
  omega

/-- No node leaves its tree, so no node becomes free. -/
theorem Extends.eq_none (h : f.Extends f') (hu : f'.label u = none) : f.label u = none := by
  cases hl : f.label u with
  | none => rfl
  | some l =>
    obtain ⟨m, hm, -⟩ := h u l hl
    rw [hu] at hm
    cases hm

theorem Extends.openNodes_subset (h : f.Extends f') (hsize : f'.labels.size = f.labels.size)
    (hwait : ∀ u, u ∈ f'.active.waiting → u ∈ f.active.waiting ∨ f.label u = none) :
    f'.openNodes ⊆ f.openNodes := by
  intro u hu
  simp only [openNodes, Finset.mem_filter, Finset.mem_range] at hu ⊢
  refine ⟨hsize ▸ hu.1, ?_⟩
  rcases hu.2 with hfree | hw
  · exact Or.inl (h.eq_none hfree)
  · exact (hwait u hw).symm

/-- The potential does not rise if only free nodes begin to wait. -/
theorem Extends.potential_le (h : f.Extends f') (hsize : f'.labels.size = f.labels.size)
    (hwait : ∀ u, u ∈ f'.active.waiting → u ∈ f.active.waiting ∨ f.label u = none) :
    f'.potential ≤ f.potential := by
  have hopen := Finset.card_le_card (h.openNodes_subset hsize hwait)
  have hfree : f'.freeNodes ⊆ f.freeNodes := by
    intro u hu
    simp only [freeNodes, Finset.mem_filter, Finset.mem_range] at hu ⊢
    exact ⟨hsize ▸ hu.1, h.eq_none hu.2⟩
  have hcard := Finset.card_le_card hfree
  unfold potential
  omega

/-! ## Forests with the same labels -/

theorem label_congr (h : f'.labels = f.labels) (u : Nat) : f'.label u = f.label u := by
  unfold label
  rw [h]

theorem Sound.of_labels (hs : f.Sound R) (h : f'.labels = f.labels) : f'.Sound R where
  size_eq := by rw [h, hs.size_eq]
  root_of_excess u hu := by
    simp only [label_congr h]
    exact hs.root_of_excess u hu
  bound u l hu := hs.bound u l (by rw [← label_congr h, hu])
  hung u l a hu hp := by
    simp only [label_congr h]
    exact hs.hung u l a (by rw [← label_congr h, hu]) hp

theorem Ordered.of_labels {t : ArcTable} (ho : f.Ordered t) (h : f'.labels = f.labels)
    (hc : f.clock ≤ f'.clock) : f'.Ordered t where
  nearer u l a v m hu hp ha hv :=
    ho.nearer u l a v m (by rw [← label_congr h, hu]) hp ha (by rw [← label_congr h, hv])
  depth_pos u l hu := ho.depth_pos u l (by rw [← label_congr h, hu])
  root_depth u l hu := ho.root_depth u l (by rw [← label_congr h, hu])
  stamp_le u l hu := Nat.le_trans (ho.stamp_le u l (by rw [← label_congr h, hu])) hc

theorem Settled.of_labels (hs : f.Settled) (h : f'.labels = f.labels) : f'.Settled :=
  fun u l hu => hs u l (by rw [← label_congr h, hu])

theorem Exhausted.of_labels (he : f.Exhausted R u) (h : f'.labels = f.labels) :
    f'.Exhausted R u := by
  intro l a v hu ha hc
  simp only [label_congr h] at hu ⊢
  exact he l a v hu ha hc

/-- Queueing a node changes the queue alone. -/
theorem activate_ok {n : Nat} {held : Option Nat} (h : f.active.Tracks n held) (hu : u < n) :
    ∃ q, f.activate u = .ok { f with active := q } ∧ q.Tracks n held ∧
      ∀ v, v ∈ q.waiting ↔ v ∈ f.active.waiting ∨ v = u ∧ held ≠ some u := by
  obtain ⟨q, hq, ht, hmem⟩ := h.push_ok hu
  exact ⟨q, by simp only [activate, hq, bind, Except.bind, pure, Except.pure], ht, hmem⟩

theorem labels_of_activate (h : f.activate u = .ok f') : f'.labels = f.labels := by
  obtain ⟨q, -, h⟩ := bind_eq_ok_iff.1 h
  obtain rfl := Except.ok.inj h
  rfl

/-! ## The scan of one arc -/

/-- The forest while the node `i` labelled `l` scans the arcs around it. -/
structure Scanning (R : Residual) (i : Nat) (l : Label) (f : Forest) : Prop where
  sound : f.Sound R
  ordered : f.Ordered R.arcs
  settled : f.Settled
  tracks : f.active.Tracks f.labels.size none
  watched : f.Watched R (some i)
  label_eq : f.label i = some l
  not_mem : i ∉ f.active.waiting

/-- What every part of a scan leaves behind. -/
structure Advances (f f' : Forest) : Prop where
  size_eq : f'.labels.size = f.labels.size
  clock_eq : f'.clock = f.clock
  orphans_eq : f'.orphans = f.orphans
  sides : f.Extends f'
  potential_le : f'.potential ≤ f.potential

theorem Advances.refl (f : Forest) : f.Advances f :=
  ⟨rfl, rfl, rfl, .refl f, Nat.le_refl _⟩

theorem Advances.trans {g : Forest} (h : f.Advances f') (h' : f'.Advances g) : f.Advances g :=
  ⟨h'.size_eq.trans h.size_eq, h'.clock_eq.trans h.clock_eq, h'.orphans_eq.trans h.orphans_eq,
    h.sides.trans h'.sides, Nat.le_trans h'.potential_le h.potential_le⟩

/-- A meeting joins a node of the source tree to one of the sink tree by an arc with residual
capacity. -/
structure Joins (R : Residual) (f : Forest) (m : Meeting) : Prop where
  source_label : ∃ l, f.label m.sourceEnd = some l ∧ l.side = .source
  sink_label : ∃ l, f.label m.sinkEnd = some l ∧ l.side = .sink
  leads : R.arcs.Leads m.middle m.sourceEnd m.sinkEnd
  capacity_pos : 0 < R.arcs.capacity m.middle

/-- What a node finds along an arc with residual capacity on the other side is a meeting. -/
theorem joins_found (hi : f.label i = some l) (hj : f.label j = some m) (hne : m.side ≠ l.side)
    (ha : R.arcs.Leads a i j) (hc : 0 < R.arcs.capacity (treeArc l.side a.sister)) :
    f.Joins R (.found l.side i j a) := by
  -- the arc of a meeting runs from the source tree to the sink tree, whichever of them grows
  cases hs : l.side with
  | source =>
    rw [hs] at hc hne
    have hm : m.side = .sink := by cases hm : m.side <;> simp_all
    exact ⟨⟨l, hi, hs⟩, ⟨m, hj, hm⟩, ha, by
      show 0 < R.arcs.capacity a
      simpa [treeArc] using hc⟩
  | sink =>
    rw [hs] at hc hne
    have hm : m.side = .source := by cases hm : m.side <;> simp_all
    exact ⟨⟨m, hj, hm⟩, ⟨l, hi, hs⟩, ha.sister, hc⟩

/-- A node whose side has not changed is exhausted if it was before. -/
theorem Exhausted.of_extends (he : f.Exhausted R u) (hx : f.Extends f')
    (hu : ∀ m, f'.label u = some m → ∃ l, f.label u = some l ∧ l.side = m.side) :
    f'.Exhausted R u := by
  intro m a v hm ha hc
  obtain ⟨l, hl, hs⟩ := hu m hm
  obtain ⟨k, hk, hk'⟩ := he l a v hl ha (by rwa [hs])
  obtain ⟨k', hv, hs'⟩ := hx v k hk
  exact ⟨k', hv, by rw [hs', hk', hs]⟩

/-- Giving a node of a tree another label on the same side keeps every node in its tree. -/
theorem extends_setLabel (hj : j < f.labels.size)
    (hold : ∀ k, f.label j = some k → k.side = m.side) : f.Extends (f.setLabel j (some m)) := by
  intro u l hl
  by_cases hju : j = u
  · subst hju
    exact ⟨m, by rw [label_setLabel hj, if_pos rfl], (hold l hl).symm⟩
  · exact ⟨l, by rw [label_setLabel hj, if_neg hju, hl], rfl⟩

/-- Hanging a neighbour below the scanning node, be it free or on the same side. -/
theorem Scanning.hang (h : f.Scanning R i l) (ha : R.arcs.Leads a i j) (hne : i ≠ j)
    (hj : j < f.labels.size) (hc : 0 < R.arcs.capacity (treeArc l.side a.sister))
    (hold : ∀ k, f.label j = some k → k.side = l.side ∧ k.stamp ≤ l.stamp ∧ l.depth < k.depth) :
    (f.setLabel j (some (l.child a.sister))).Sound R ∧
      (f.setLabel j (some (l.child a.sister))).Ordered R.arcs ∧
      (f.setLabel j (some (l.child a.sister))).Settled := by
  have hpos := h.ordered.depth_pos i l h.label_eq
  refine ⟨?_, ?_, ?_⟩
  · refine h.sound.hang hj (fun k hk => ⟨?_, (hold k hk).1⟩) rfl ha.sister hne.symm h.label_eq
      rfl hc
    intro hroot
    -- a root has depth one, and nothing of positive depth is less deep
    have hdepth := h.ordered.root_depth j k hk hroot
    have hlt := (hold k hk).2.2
    omega
  · refine h.ordered.hang hj (fun hfree w k b hw hp => h.sound.not_leads_of_free hfree hw hp)
      ?_ rfl ha.sister hne.symm h.label_eq ?_ ?_ (h.ordered.stamp_le i l h.label_eq)
    · intro k hk
      obtain ⟨-, hstamp, hdepth⟩ := hold k hk
      show k.stamp < l.stamp ∨ k.stamp = l.stamp ∧ l.depth + 1 ≤ k.depth
      omega
    · exact Or.inr ⟨rfl, Nat.lt_succ_self l.depth⟩
    · exact Nat.succ_pos l.depth
  · intro u k hk
    rw [label_setLabel hj] at hk
    split at hk
    · cases hk
      simp [Label.child]
    · exact h.settled u k hk

/-- Claiming a free node. -/
theorem growTo_claim (h : f.Scanning R i l) (ha : R.arcs.Leads a i j) (hne : i ≠ j)
    (hj : j < f.labels.size) (hc : 0 < R.arcs.capacity (treeArc l.side a.sister))
    (hfree : f.label j = none) (reparent : Bool) :
    ∃ f', f.growTo reparent i l a j = .ok (f', none) ∧ f'.Scanning R i l ∧ f.Advances f' ∧
      ∃ m, f'.label j = some m ∧ m.side = l.side := by
  obtain ⟨hsound, hordered, hsettled⟩ := h.hang ha hne hj hc fun k hk => by
    rw [hfree] at hk
    cases hk
  have htracks : (f.setLabel j (some (l.child a.sister))).active.Tracks f.labels.size none :=
    h.tracks
  obtain ⟨q, hq, ht, hmem⟩ := activate_ok htracks hj
  have hext : f.Extends (f.setLabel j (some (l.child a.sister))) :=
    extends_setLabel hj fun k hk => by
      rw [hfree] at hk
      cases hk
  refine ⟨{ f.setLabel j (some (l.child a.sister)) with active := q }, ?_, ⟨hsound.of_labels rfl,
    hordered.of_labels rfl (Nat.le_refl _), hsettled.of_labels rfl, ?_, ?_, ?_, ?_⟩,
    ⟨size_setLabel f j _, rfl, rfl, hext, ?_⟩, l.child a.sister, ?_, rfl⟩
  · simp only [growTo, fetch_labels hj, hfree, hq, bind, Except.bind, pure, Except.pure]
  · show q.Tracks (f.setLabel j _).labels.size none
    rw [size_setLabel]
    exact ht
  · intro u hu hspared
    -- the new node waits, so only the others have to be exhausted
    have hju : u ≠ j := by
      rintro rfl
      exact hu ((hmem u).2 (Or.inr ⟨rfl, by simp⟩))
    have hw : u ∉ f.active.waiting := fun hw => hu ((hmem u).2 (Or.inl hw))
    refine ((h.watched u hw hspared).of_extends hext fun m hm => ⟨m, ?_, rfl⟩).of_labels rfl
    rwa [label_setLabel hj, if_neg (Ne.symm hju)] at hm
  · show (f.setLabel j _).label i = some l
    rw [label_setLabel hj, if_neg (Ne.symm hne), h.label_eq]
  · intro hi
    rcases (hmem i).1 hi with hi | ⟨hi, -⟩
    · exact h.not_mem hi
    · exact hne hi
  · refine Extends.potential_le hext (size_setLabel f j _) ?_
    intro u hu
    rcases (hmem u).1 hu with hw | ⟨rfl, -⟩
    · exact Or.inl hw
    · exact Or.inr hfree
  · show (f.setLabel j _).label j = _
    rw [label_setLabel hj, if_pos rfl]

/-- Taking over a node of the same tree. -/
theorem growTo_reparent (h : f.Scanning R i l) (ha : R.arcs.Leads a i j) (hne : i ≠ j)
    (hc : 0 < R.arcs.capacity (treeArc l.side a.sister)) (hm : f.label j = some m)
    (hside : m.side = l.side) (hstamp : m.stamp ≤ l.stamp) (hdepth : l.depth < m.depth) :
    (f.setLabel j (some (l.child a.sister))).Scanning R i l ∧
      f.Advances (f.setLabel j (some (l.child a.sister))) := by
  have hj := lt_of_label hm
  obtain ⟨hsound, hordered, hsettled⟩ := h.hang ha hne hj hc fun k hk => by
    rw [hm] at hk
    cases hk
    exact ⟨hside, hstamp, hdepth⟩
  have hext : f.Extends (f.setLabel j (some (l.child a.sister))) :=
    extends_setLabel hj fun k hk => by
      rw [hm] at hk
      cases hk
      exact hside
  refine ⟨⟨hsound, hordered, hsettled, ?_, ?_, ?_, h.not_mem⟩,
    ⟨size_setLabel f j _, rfl, rfl, hext, ?_⟩⟩
  · rw [size_setLabel]
    exact h.tracks
  · intro u hu hspared
    apply (h.watched u hu hspared).of_extends hext
    intro k hk
    rw [label_setLabel hj] at hk
    split at hk
    · rename_i hju
      subst hju
      cases hk
      exact ⟨m, hm, hside⟩
    · exact ⟨k, hk, rfl⟩
  · rw [label_setLabel hj, if_neg (Ne.symm hne), h.label_eq]
  · exact hext.potential_le (size_setLabel f j _) fun u hu => Or.inl hu

/-- The residual capacity of a tree edge can be read. -/
theorem treeResidual_eq {t : ArcTable} (ha : t.Leads a u v) (side : Segment) :
    t.treeResidual side a = .ok (t.capacity (treeArc side a)) := by
  cases side with
  | source => exact ha.sister.residual_eq
  | sink => exact ha.residual_eq

variable {N : Network}

/-- Both ends of an arc have an entry in the forest. -/
theorem Sound.lt_of_leads (h : f.Sound R) (hN : N.WellFormed) (hR : R.Within N)
    (ha : R.arcs.Leads a u v) : u < f.labels.size ∧ v < f.labels.size := by
  rw [h.size_labels hR]
  exact hR.arcs.lt_of_leads hN ha

/-- What is known of an outcome of a scan of the arcs `as` around the node `i`. -/
def ScanResult (R : Residual) (i : Nat) (l : Label) (as : List ArcRef) (f : Forest) :
    Option Meeting → Prop
  | none => ∀ a ∈ as, ∀ j, R.arcs.Leads a i j → 0 < R.arcs.capacity (treeArc l.side a.sister) →
    ∃ m, f.label j = some m ∧ m.side = l.side
  | some m => f.Joins R m

/-- **The scan of one arc** succeeds and keeps the forest as it should be. -/
theorem growAlong_spec (hN : N.WellFormed) (hR : R.Within N) (h : f.Scanning R i l)
    (ha : R.arcs.Leads a i j) (hne : i ≠ j) (reparent : Bool) :
    ∃ f' o, growAlong R.arcs reparent i l f a = .ok (f', o) ∧ f'.Scanning R i l ∧
      f.Advances f' ∧ f'.ScanResult R i l [a] o := by
  have hj := (h.sound.lt_of_leads hN hR ha).2
  have hres := treeResidual_eq ha.sister l.side
  have honly : ∀ (f' : Forest), (0 < R.arcs.capacity (treeArc l.side a.sister) →
      ∃ m, f'.label j = some m ∧ m.side = l.side) → f'.ScanResult R i l [a] none := by
    intro f' hf' b hb k hk hc
    obtain rfl : b = a := by simpa using hb
    obtain ⟨-, rfl⟩ := hk.unique ha
    exact hf' hc
  unfold growAlong
  simp only [hres, bind, Except.bind]
  by_cases hzero : R.arcs.capacity (treeArc l.side a.sister) = 0
  · refine ⟨f, none, by simp only [if_pos hzero]; rfl, h, .refl f, honly f fun hc => ?_⟩
    omega
  · have hc : 0 < R.arcs.capacity (treeArc l.side a.sister) :=
      Int.lt_iff_le_and_ne.2 ⟨hR.arcs.nonneg _, Ne.symm hzero⟩
    simp only [if_neg hzero, ha.head_eq]
    cases hm : f.label j with
    | none =>
      obtain ⟨f', hok, hS, hA, hlabel⟩ := growTo_claim h ha hne hj hc hm reparent
      exact ⟨f', none, hok, hS, hA, honly f' fun _ => hlabel⟩
    | some m =>
      unfold growTo
      simp only [fetch_labels_of_label hm, bind, Except.bind, pure, Except.pure]
      by_cases hside : m.side = l.side
      · rw [if_neg (not_not.2 hside)]
        split
        · rename_i hcond
          obtain ⟨hS, hA⟩ := growTo_reparent h ha hne hc hm hside hcond.2.1 hcond.2.2
          refine ⟨_, none, rfl, hS, hA, honly _ fun _ => ⟨l.child a.sister, ?_, rfl⟩⟩
          rw [label_setLabel hj, if_pos rfl]
        · exact ⟨f, none, rfl, h, .refl f, honly f fun _ => ⟨m, hm, hside⟩⟩
      · rw [if_pos hside]
        exact ⟨f, _, rfl, h, .refl f, joins_found h.label_eq hm hside ha hc⟩

/-- **The scan of a list of arcs** ends at the first meeting, and otherwise leaves no arc
along which the tree could grow. -/
theorem growAll_spec (hN : N.WellFormed) (hR : R.Within N) (reparent : Bool) {as : List ArcRef}
    (has : ∀ a ∈ as, ∃ j, R.arcs.Leads a i j ∧ i ≠ j) (h : f.Scanning R i l) :
    ∃ f' o, growAll R.arcs reparent i l f as = .ok (f', o) ∧ f'.Scanning R i l ∧
      f.Advances f' ∧ f'.ScanResult R i l as o := by
  induction as generalizing f with
  | nil => exact ⟨f, none, rfl, h, .refl f, fun a ha => by simp at ha⟩
  | cons a as ih =>
    obtain ⟨j, ha, hne⟩ := has a List.mem_cons_self
    obtain ⟨f₁, o₁, h₁, hS₁, hA₁, hres₁⟩ := growAlong_spec hN hR h ha hne reparent
    unfold growAll
    simp only [h₁, bind, Except.bind]
    cases o₁ with
    | some m => exact ⟨f₁, some m, rfl, hS₁, hA₁, hres₁⟩
    | none =>
      obtain ⟨f₂, o₂, h₂, hS₂, hA₂, hres₂⟩ :=
        ih (fun b hb => has b (List.mem_cons_of_mem a hb)) hS₁
      refine ⟨f₂, o₂, h₂, hS₂, hA₁.trans hA₂, ?_⟩
      cases o₂ with
      | some m => exact hres₂
      | none =>
        intro b hb k hk hc
        rcases List.mem_cons.1 hb with rfl | hb
        · obtain ⟨m, hm, hs⟩ := hres₁ b List.mem_cons_self k hk hc
          -- the other arcs may have moved this node, but within its tree
          obtain ⟨m', hm', hs'⟩ := hA₂.sides k m hm
          exact ⟨m', hm', hs'.trans hs⟩
        · exact hres₂ b hb k hk hc

/-- The forest after a node `i` has grown: all measurements are older than the present time. -/
structure Grown (R : Residual) (i : Nat) (l : Label) (f f' : Forest) : Prop where
  scanning : f'.Scanning R i l
  size_eq : f'.labels.size = f.labels.size
  clock_eq : f'.clock = f.clock + 1
  orphans_eq : f'.orphans = f.orphans
  sides : f.Extends f'
  stamp_lt : ∀ u k, f'.label u = some k → k.stamp < f'.clock
  potential_le : f'.potential ≤ f.potential

/-- **A node grows.** It finds a meeting, or it is exhausted like all others that do not
wait. -/
theorem grow_spec (hN : N.WellFormed) (hR : R.Within N) (h : f.Scanning R i l) (reparent : Bool) :
    ∃ f' o, f.grow R.arcs reparent i = .ok (f', o) ∧ Grown R i l f f' ∧
      match o with
      | none => f'.Watched R none
      | some m => f'.Joins R m := by
  have hi : i < N.numNodes := h.sound.lt_numNodes hR h.label_eq
  obtain ⟨f₁, o, hok, hS, hA, hres⟩ := growAll_spec hN hR reparent
    (fun a ha => hR.arcs.mem_around.1 ha) h
  refine ⟨{ f₁ with clock := f₁.clock + 1 }, o, ?_, ⟨⟨hS.sound.of_labels rfl,
    hS.ordered.of_labels rfl (Nat.le_succ _), hS.settled.of_labels rfl, hS.tracks, ?_, hS.label_eq,
    hS.not_mem⟩, hA.size_eq, by simp [hA.clock_eq], hA.orphans_eq, hA.sides, ?_,
    hA.potential_le⟩, ?_⟩
  · unfold grow
    simp only [fetch_labels_of_label h.label_eq, hR.arcs.around_eq i hi, hok, bind, Except.bind,
      pure, Except.pure]
  · exact fun u hu hspared => (hS.watched u hu hspared).of_labels rfl
  · intro u k hk
    exact Nat.lt_succ_of_le (hS.ordered.stamp_le u k hk)
  · cases o with
    | some m => exact ⟨hres.source_label, hres.sink_label, hres.leads, hres.capacity_pos⟩
    | none =>
      intro u hu _
      -- the node that grew has no arc left, and all others are as before
      by_cases hui : u = i
      · subst hui
        intro k a v hk ha hc
        have hk' : f₁.label u = some k := hk
        rw [hS.label_eq] at hk'
        cases hk'
        show ∃ m, f₁.label v = some m ∧ m.side = l.side
        by_cases huv : u = v
        · subst huv
          exact ⟨l, hS.label_eq, rfl⟩
        · exact hres a (hR.arcs.mem_around.2 ⟨v, ha, huv⟩) v ha hc
      · exact (hS.watched u hu (fun hc => hui (by simpa using hc.symm))).of_labels rfl

end Forest

end MinCut
