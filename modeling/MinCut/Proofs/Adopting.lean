/-
# Adopting orphans

Each orphan taken from the list either finds a node of its tree to hang on, whose way up ends
at a root, or leaves its tree.  Either way it will not be taken again before the phase is
over, for a node that was measured in this phase does not lose its parent in it.

Key facts:
* `considerAll_spec` : looking for a parent, by induction on the arcs;
* `settle_cases` and `settle_spec` : settling one orphan;
* `exists_takes` : the nodes that a phase takes from the list, none of them twice;
* `adopt_spec` : a phase ends, settles no more orphans than there are nodes, and leaves none.
-/
import MinCut.Proofs.Releasing

namespace MinCut

namespace Forest

variable {R : Residual} {N : Network} {f f' g : Forest} {i j u v w n : Nat} {l m : Label}
variable {a : ArcRef} {as : List ArcRef} {side : Segment} {held : Option Nat}

/-! ## The phase -/

/-- **The forest between two orphans** of a phase. -/
structure Repairing (R : Residual) (held : Option Nat) (f : Forest) : Prop where
  sound : f.Sound R
  ordered : f.Ordered R.arcs
  exact : f.Exact R.arcs
  listed : f.Listed
  tracks : f.active.Tracks f.labels.size held
  watched : f.Watched R held

/-- The forest while the orphan `i` is settled: all other orphans are listed. -/
structure Seeking (R : Residual) (held : Option Nat) (i : Nat) (f : Forest) : Prop where
  sound : f.Sound R
  ordered : f.Ordered R.arcs
  exact : f.Exact R.arcs
  nodup : (i :: f.orphans.order).Nodup
  mem_iff : ∀ u, u ∈ i :: f.orphans.order ↔ ∃ l, f.label u = some l ∧ l.parent = .orphan
  tracks : f.active.Tracks f.labels.size held
  watched : f.Watched R held

/-- The orphan that is settled is labelled. -/
theorem Seeking.exists_label (h : f.Seeking R held i) :
    ∃ l, f.label i = some l ∧ l.parent = .orphan :=
  (h.mem_iff i).1 List.mem_cons_self

theorem Seeking.parent_eq (h : f.Seeking R held i) (hi : f.label i = some l) :
    l.parent = .orphan := by
  obtain ⟨k, hk, hp⟩ := h.exists_label
  rw [hi] at hk
  cases hk
  exact hp

/-- Once the orphan has another label, or none, the list is that of all orphans. -/
theorem Seeking.listed_setLabel (h : f.Seeking R held i) {o : Option Label}
    (ho : ∀ k, o = some k → k.parent ≠ .orphan) : (f.setLabel i o).Listed := by
  obtain ⟨l, hi, -⟩ := h.exists_label
  constructor
  · exact (List.nodup_cons.1 h.nodup).2
  · intro u
    rw [label_setLabel (lt_of_label hi)]
    by_cases hiu : i = u
    · subst hiu
      rw [if_pos rfl]
      constructor
      · intro hmem
        exact absurd hmem (List.nodup_cons.1 h.nodup).1
      · rintro ⟨k, hk, hp⟩
        exact absurd hp (ho k hk)
    · rw [if_neg hiu, ← h.mem_iff, List.mem_cons]
      exact ⟨Or.inr, fun hc => hc.resolve_left (Ne.symm hiu)⟩

/-- Taking up the next orphan. -/
theorem Repairing.seeking (h : f.Repairing R held) {o : OrphanList}
    (hn : f.orphans.next? = some (i, o)) : Seeking R held i { f with orphans := o } where
  sound := h.sound.of_labels rfl
  ordered := h.ordered.of_labels rfl (Nat.le_refl _)
  exact := h.exact
  nodup := by
    show (i :: o.order).Nodup
    rw [← OrphanList.order_next? hn]
    exact h.listed.nodup
  mem_iff u := by
    show u ∈ i :: o.order ↔ _
    rw [← OrphanList.order_next? hn]
    exact h.listed.mem_iff u
  tracks := h.tracks
  watched u hu hs := (h.watched u hu hs).of_labels rfl

/-- New measurements do not disturb the search for a parent. -/
theorem Seeking.of_remeasures (h : f.Seeking R held i) (hr : f.Remeasures g)
    (he : g.Exact R.arcs) : g.Seeking R held i where
  sound := hr.sound h.sound
  ordered := hr.ordered h.ordered he
  exact := he
  nodup := by rw [hr.orphans_eq]; exact h.nodup
  mem_iff u := by
    rw [hr.orphans_eq, h.mem_iff]
    constructor
    · rintro ⟨l, hl, hp⟩
      obtain ⟨m, hm, -, hp'⟩ := hr.exists_label hl
      exact ⟨m, hm, hp'.trans hp⟩
    · rintro ⟨m, hm, hp⟩
      obtain ⟨l, hl, -, hp', -⟩ := hr.exists_label_of hm
      exact ⟨l, hl, hp'.symm.trans hp⟩
  tracks := by rw [hr.active_eq, hr.size_eq]; exact h.tracks
  watched u hu hs := by
    rw [hr.active_eq] at hu
    refine (h.watched u hu hs).of_extends ?_ ?_
    · intro w l hl
      obtain ⟨m, hm, hside, -⟩ := hr.exists_label hl
      exact ⟨m, hm, hside⟩
    · intro m hm
      obtain ⟨l, hl, hside, -⟩ := hr.exists_label_of hm
      exact ⟨l, hl, hside.symm⟩

/-- New measurements undo no measurement. -/
theorem Remeasures.settling (h : f.Remeasures g) : f.Settling g := by
  refine ⟨h.size_eq, h.clock_eq, ?_⟩
  intro u hu
  obtain ⟨m, hm, hs⟩ := mem_unmeasured.1 hu
  rw [h.clock_eq] at hs
  obtain ⟨l, hl, -, -, rfl | ⟨-, hs'⟩⟩ := h.exists_label_of hm
  · exact mem_unmeasured.2 ⟨m, hl, hs⟩
  · exact absurd hs' hs

/-! ## Looking for a parent -/

/-- The orphan `i` of the tree `side` may hang on the candidate. -/
def Suits (R : Residual) (f : Forest) (i : Nat) (side : Segment) (c : Candidate) : Prop :=
  ∃ j m, R.arcs.Leads c.arc i j ∧ i ≠ j ∧ 0 < R.arcs.capacity (treeArc side c.arc) ∧
    f.label j = some m ∧ m.side = side ∧ m.stamp = f.clock ∧ m.depth = c.depth

/-- A candidate is measured, so it stays one. -/
theorem Suits.of_remeasures {c : Candidate} (h : f.Suits R i side c) (hr : f.Remeasures g) :
    g.Suits R i side c := by
  obtain ⟨j, m, ha, hne, hc, hm, hside, hs, hd⟩ := h
  exact ⟨j, m, ha, hne, hc, hr.label_of_measured hm hs, hside, by rw [hr.clock_eq, hs], hd⟩

/-- Where there is no candidate yet, none is unsuitable. -/
theorem suits_none (R : Residual) (f : Forest) (i : Nat) (side : Segment) :
    ∀ b, (none : Option Candidate) = some b → f.Suits R i side b := by
  intro b hb
  cases hb

/-- The nearer of two candidates is one of them. -/
theorem suits_nearer {best : Option Candidate} {c : Candidate}
    (hbest : ∀ b, best = some b → f.Suits R i side b) (hc : f.Suits R i side c) :
    ∀ b, nearer best c = some b → f.Suits R i side b := by
  intro b hb
  unfold nearer at hb
  split at hb
  · cases hb
    exact hc
  · split at hb
    · cases hb
      exact hc
    · cases hb
      exact hbest _ rfl

/-- **One arc** around an orphan. -/
theorem consider_spec (hN : N.WellFormed) (hR : R.Within N) (h : f.Seeking R held i)
    {best : Option Candidate} (hbest : ∀ b, best = some b → f.Suits R i side b)
    (ha : R.arcs.Leads a i j) (hne : i ≠ j) :
    ∃ g best', consider R.arcs side f best a = .ok (g, best') ∧ f.Remeasures g ∧
      g.Exact R.arcs ∧ ∀ b, best' = some b → g.Suits R i side b := by
  have hj := (h.sound.lt_of_leads hN hR ha).2
  have hstay : f.Remeasures f ∧ f.Exact R.arcs ∧ ∀ b, best = some b → f.Suits R i side b :=
    ⟨.refl f, h.exact, hbest⟩
  unfold consider
  simp only [treeResidual_eq ha, bind, Except.bind, pure, Except.pure]
  by_cases hzero : R.arcs.capacity (treeArc side a) = 0
  · rw [if_pos hzero]
    exact ⟨f, best, rfl, hstay⟩
  · have hc : 0 < R.arcs.capacity (treeArc side a) :=
      Int.lt_iff_le_and_ne.2 ⟨hR.arcs.nonneg _, Ne.symm hzero⟩
    rw [if_neg hzero]
    simp only [ha.head_eq, fetch_labels hj]
    cases hm : f.label j with
    | none => exact ⟨f, best, rfl, hstay⟩
    | some m =>
      by_cases hside : m.side = side
      · simp only [if_neg (not_not.2 hside)]
        obtain ⟨o, ho, hmark⟩ := measure_spec h.sound h.ordered h.exact hm
        rw [ho.eq]
        cases o with
        | none => exact ⟨f, best, rfl, hstay⟩
        | some d =>
          obtain ⟨g, hg, hr, he, k, hk, hs, hd⟩ := hmark d rfl
          simp only [hg]
          refine ⟨g, _, rfl, hr, he, suits_nearer (fun b hb => (hbest b hb).of_remeasures hr) ?_⟩
          obtain ⟨m', hm', hside', -⟩ := hr.exists_label hm
          rw [hk] at hm'
          cases hm'
          exact ⟨j, k, ha, hne, hc, hk, hside'.trans hside, by rw [hr.clock_eq, hs], hd⟩
      · simp only [if_pos hside]
        exact ⟨f, best, rfl, hstay⟩

/-- **All arcs** around an orphan. -/
theorem considerAll_spec (hN : N.WellFormed) (hR : R.Within N)
    (has : ∀ a ∈ as, ∃ j, R.arcs.Leads a i j ∧ i ≠ j) (h : f.Seeking R held i)
    {best : Option Candidate} (hbest : ∀ b, best = some b → f.Suits R i side b) :
    ∃ g best', considerAll R.arcs side f best as = .ok (g, best') ∧ f.Remeasures g ∧
      g.Seeking R held i ∧ ∀ b, best' = some b → g.Suits R i side b := by
  induction as generalizing f best with
  | nil => exact ⟨f, best, rfl, .refl f, h, hbest⟩
  | cons a as ih =>
    obtain ⟨j, ha, hne⟩ := has a List.mem_cons_self
    obtain ⟨f₁, b₁, h₁, hr₁, he₁, hb₁⟩ := consider_spec hN hR h hbest ha hne
    obtain ⟨f₂, b₂, h₂, hr₂, hs₂, hb₂⟩ :=
      ih (fun b hb => has b (List.mem_cons_of_mem a hb)) (h.of_remeasures hr₁ he₁) hb₁
    refine ⟨f₂, b₂, ?_, hr₁.trans hr₂, hs₂, hb₂⟩
    unfold considerAll
    simp only [h₁, bind, Except.bind]
    exact h₂

/-! ## Finding a parent -/

/-- **An orphan that hangs itself on a candidate** is settled. -/
theorem Seeking.hang (h : f.Seeking R held i) (hi : f.label i = some l) {c : Candidate}
    (hc : f.Suits R i l.side c) {l' : Label} (hside' : l'.side = l.side)
    (hparent' : l'.parent = .via c.arc) (hstamp' : l'.stamp = f.clock)
    (hdepth' : l'.depth = c.depth + 1) : (f.setLabel i (some l')).Repairing R held := by
  obtain ⟨j, m, ha, hne, hcap, hm, hside, hstamp, hdepth⟩ := hc
  have hlt := lt_of_label hi
  have hparent := h.parent_eq hi
  have hold := h.exact.stamp_ne hi hparent
  have hle := h.ordered.stamp_le i l hi
  have honly : ∀ k, f.label i = some k → k = l := by
    intro k hk
    rw [hi] at hk
    cases hk
    rfl
  refine ⟨?_, ?_, ?_, ?_, ?_, ?_⟩
  · refine h.sound.hang hlt ?_ hparent' ha hne hm (hside.trans hside'.symm)
      (by rw [hside']; exact hcap)
    intro k hk
    rw [honly k hk, hparent, hside']
    exact ⟨by simp, rfl⟩
  · refine h.ordered.hang hlt (fun hfree => absurd hfree (by rw [hi]; simp)) ?_ hparent' ha hne hm
      ?_ (by omega) (by omega)
    · intro k hk
      rw [honly k hk]
      omega
    · exact Or.inr ⟨by rw [hstamp', hstamp], by omega⟩
  · apply h.exact.setLabel hlt
    · intro k hk
      rw [honly k hk]
      exact hold
    · intro k hk _
      cases hk
      exact ⟨c.arc, j, m, hparent', ha, hne, hm, hstamp, by omega⟩
  · apply h.listed_setLabel
    intro k hk
    cases hk
    simp [hparent']
  · rw [size_setLabel]
    exact h.tracks
  · intro u hu hs
    refine (h.watched u hu hs).of_extends (extends_setLabel hlt ?_) ?_
    · intro k hk
      rw [honly k hk, hside']
    · intro k hk
      rw [label_setLabel hlt] at hk
      split at hk
      · rename_i hiu
        subst hiu
        cases hk
        exact ⟨l, hi, hside'.symm⟩
      · exact ⟨k, hk, rfl⟩

/-! ## Finding none -/

/-- Fewer nodes in the trees are ordered as well. -/
theorem Ordered.free {t : ArcTable} (h : f.Ordered t)
    (hsome : ∀ w k, (f.setLabel i none).label w = some k → f.label w = some k) :
    (f.setLabel i none).Ordered t where
  nearer u k b v m hk hp hb hm := h.nearer u k b v m (hsome u k hk) hp hb (hsome v m hm)
  depth_pos u k hk := h.depth_pos u k (hsome u k hk)
  root_depth u k hk hp := h.root_depth u k (hsome u k hk) hp
  stamp_le u k hk := h.stamp_le u k (hsome u k hk)

/-- **An orphan that becomes free** leaves its children and the nodes that could grow back to be
found along the arcs around it. -/
theorem Seeking.free (h : f.Seeking R held i) (hi : f.label i = some l)
    (hmem : ∀ b, b ∈ as ↔ ∃ v, R.arcs.Leads b i v ∧ i ≠ v) :
    Releasing R held i l.side as as (f.setLabel i none) := by
  have hlt := lt_of_label hi
  have hparent := h.parent_eq hi
  have hlabel : ∀ w, (f.setLabel i none).label w = if i = w then none else f.label w :=
    fun w => label_setLabel hlt none
  have hsome : ∀ w k, (f.setLabel i none).label w = some k → i ≠ w ∧ f.label w = some k := by
    intro w k hk
    rw [hlabel] at hk
    split at hk
    · cases hk
    · exact ⟨‹_›, hk⟩
  refine ⟨by rw [size_setLabel, h.sound.size_eq], ?_, ?_, ?_, by rw [hlabel, if_pos rfl],
    h.ordered.free fun w k hk => (hsome w k hk).2, ?_, ?_, ?_, ?_⟩
  · intro u hu
    obtain ⟨k, hk, hp⟩ := h.sound.root_of_excess u hu
    have hiu : i ≠ u := by
      rintro rfl
      rw [h.parent_eq hk] at hp
      cases hp
    exact ⟨k, by rw [hlabel, if_neg hiu, hk], hp⟩
  · intro u k hk hp
    exact h.sound.bound u k (hsome u k hk).2 hp
  · intro u k b hk hp
    obtain ⟨hiu, hk'⟩ := hsome u k hk
    obtain ⟨v, m, hb, hm, hside, hc⟩ := h.sound.hung u k b hk' hp
    by_cases hiv : i = v
    · -- a child is found along the sister of its tree edge
      subst hiv
      rw [hi] at hm
      cases hm
      exact ⟨i, hb, hc, Or.inr ⟨rfl, hside.symm, b.sister,
        (hmem b.sister).2 ⟨u, hb.sister, hiu⟩, hb.sister⟩⟩
    · exact ⟨v, hb, hc, Or.inl ⟨m, by rw [hlabel, if_neg hiv, hm], hside⟩⟩
  · apply h.exact.setLabel hlt
    · intro k hk
      exact h.exact.stamp_ne hk (h.parent_eq hk)
    · intro k hk
      cases hk
  · apply h.listed_setLabel
    intro k hk
    cases hk
  · rw [size_setLabel]
    exact h.tracks
  · intro u hu hs k b v hk hb hc
    obtain ⟨hiu, hk'⟩ := hsome u k hk
    obtain ⟨m, hm, hside⟩ := h.watched u hu hs k b v hk' hb hc
    by_cases hiv : i = v
    · -- so is a node that could grow back
      subst hiv
      rw [hi] at hm
      cases hm
      exact Or.inr ⟨rfl, hside.symm, (hmem b.sister).2 ⟨u, hb.sister, hiu⟩⟩
    · exact Or.inl ⟨m, by rw [hlabel, if_neg hiv, hm], hside⟩

/-! ## Settling orphans -/

/-- **What settling an orphan can do**: it goes through the arcs around it, and hangs on the best
candidate that it finds or leaves its tree. -/
theorem settle_cases {t : ArcTable} (h : settle t f i = .ok f') :
    ∃ l bs g best, f.labels[i]? = some (some l) ∧ t.around i = .ok bs ∧
      considerAll t l.side f none bs = .ok (g, best) ∧
        ((∃ c, best = some c ∧
            f' = g.setLabel i (some ⟨l.side, .via c.arc, g.clock, c.depth + 1⟩)) ∨
          best = none ∧ releaseAll t l.side i (g.setLabel i none) bs = .ok f') := by
  obtain ⟨o, ho, h⟩ := bind_eq_ok_iff.1 h
  cases o with
  | none => cases h
  | some l =>
    obtain ⟨bs, haround, h⟩ := bind_eq_ok_iff.1 h
    obtain ⟨⟨g, best⟩, hconsider, h⟩ := bind_eq_ok_iff.1 h
    refine ⟨l, bs, g, best, fetch_eq_ok_iff.1 ho, haround, hconsider, ?_⟩
    cases best with
    | some c => exact .inl ⟨c, rfl, (Except.ok.inj h).symm⟩
    | none =>
      obtain ⟨bs', haround', hrelease⟩ := bind_eq_ok_iff.1 h
      obtain rfl := Except.ok.inj (haround.symm.trans haround')
      exact .inr ⟨rfl, hrelease⟩

/-- Only an orphan of the list is settled. -/
theorem settleNext_eq_ok {t : ArcTable} (h : f.settleNext t = .ok (some f')) :
    ∃ u o, f.orphans.next? = some (u, o) ∧ settle t { f with orphans := o } u = .ok f' := by
  unfold settleNext at h
  cases hnext : f.orphans.next? with
  | none =>
    rw [hnext] at h
    cases h
  | some p =>
    obtain ⟨u, o⟩ := p
    simp only [hnext] at h
    obtain ⟨g, hsettle, h⟩ := bind_eq_ok_iff.1 h
    obtain rfl := Option.some.inj (Except.ok.inj h)
    exact ⟨u, o, rfl, hsettle⟩

/-- **Settling an orphan**: it hangs on a measured node afterwards, or it is free. -/
theorem settle_spec (hN : N.WellFormed) (hR : R.Within N) (h : f.Seeking R held i) :
    ∃ f', settle R.arcs f i = .ok f' ∧ f'.Repairing R held ∧ f.Settling f' ∧
      i ∉ f'.unmeasured := by
  obtain ⟨l, hl, hp⟩ := h.exists_label
  have hi : i < N.numNodes := h.sound.lt_numNodes hR hl
  have hmem : ∀ b, b ∈ ArcTable.arcsFrom i 0 N.edges.toList ↔ ∃ v, R.arcs.Leads b i v ∧ i ≠ v :=
    fun b => hR.arcs.mem_around
  obtain ⟨g, best, hg, hr, hs, hbest⟩ :=
    considerAll_spec hN hR (fun b hb => (hmem b).1 hb) h (suits_none R f i l.side)
  obtain ⟨k, hk, hside, -⟩ := hr.exists_label hl
  unfold settle
  simp only [fetch_labels_of_label hl, hR.arcs.around_eq i hi, hg, bind, Except.bind, pure,
    Except.pure]
  cases best with
  | some c =>
    have hc := hbest c rfl
    rw [← hside] at hc
    have hnew : ∀ k', some (⟨l.side, .via c.arc, g.clock, c.depth + 1⟩ : Label) = some k' →
        k'.stamp = g.clock := by
      intro k' hk'
      cases hk'
      rfl
    obtain ⟨hset, hnot⟩ := settling_setLabel (lt_of_label hk) hnew
    exact ⟨_, rfl, hs.hang hk hc hside.symm rfl rfl rfl, hr.settling.trans hset, hnot⟩
  | none =>
    have hfree := hs.free hk hmem
    rw [hside] at hfree
    obtain ⟨hset, hnot⟩ := settling_setLabel (o := none) (lt_of_label hk) (by simp)
    rw [← List.append_nil (ArcTable.arcsFrom i 0 N.edges.toList)] at hfree
    obtain ⟨f', hok, hrel, hset'⟩ := releaseAll_spec hN hR
      (fun b hb => ((hmem b).1 hb).imp fun _ hv => hv.1) hfree
    refine ⟨f', ?_, ⟨hrel.sound, hrel.ordered, hrel.exact, hrel.listed, hrel.tracks,
      hrel.watched_of_nil⟩, hr.settling.trans (hset.trans hset'),
      fun hc => hnot (hset'.unmeasured_subset hc)⟩
    simp only [release, hR.arcs.around_eq i hi, hok, bind, Except.bind]

/-- Settling one orphan after the other, from the forest `f` on until none is left in `f'`, takes
the nodes `us` from the list, in this order. -/
inductive Takes (t : ArcTable) : Forest → List Nat → Forest → Prop where
  | done {f : Forest} : f.orphans.next? = none → Takes t f [] f
  | next {f g f' : Forest} {u : Nat} {o : OrphanList} {us : List Nat} :
    f.orphans.next? = some (u, o) → settle t { f with orphans := o } u = .ok g → Takes t g us f' →
    Takes t f (u :: us) f'

/-- Settling all orphans ends once the last one is taken, and counts those that were. -/
theorem Takes.adoptAll_eq {t : ArcTable} {us : List Nat} (h : Takes t f us f') :
    EndsWithin us.length (adoptAll t f) (f', us.length) := by
  induction h with
  | done hn =>
    intro k _
    unfold adoptAll settleNext
    simp only [hn, bind, Except.bind, pure, Except.pure]
    rfl
  | next hn hs _ ih =>
    refine ih.step fun k hrest => ?_
    unfold adoptAll settleNext
    simp only [hn, hs, hrest, bind, Except.bind, pure, Except.pure]
    rfl

/-- **Settling one orphan after the other** uses up the nodes that are not measured, so that it
ends and takes no node twice, by induction on their number. -/
theorem exists_takes (hN : N.WellFormed) (hR : R.Within N) (h : f.Repairing R held) :
    ∃ us f', Takes R.arcs f us f' ∧ us.Nodup ∧ (∀ u ∈ us, u ∈ f.unmeasured) ∧
      f'.Repairing R held ∧ f'.orphans.order = [] ∧ f.Settling f' := by
  induction hn : f.unmeasured.card using Nat.strong_induction_on generalizing f with
  | h n ih =>
    cases ho : f.orphans.next? with
    | none =>
      exact ⟨[], f, .done ho, List.nodup_nil, by simp, h,
        (OrphanList.next?_eq_none_iff _).1 ho, .refl f⟩
    | some p =>
      obtain ⟨i, o⟩ := p
      have hseek := h.seeking ho
      obtain ⟨l, hl, hp⟩ := hseek.exists_label
      obtain ⟨g, hg, hrep, hset, hnot⟩ := settle_spec hN hR hseek
      -- the orphan was not measured, and now it is, or it is free
      have hmem : i ∈ f.unmeasured := mem_unmeasured.2 ⟨l, hl, h.exact.stamp_ne hl hp⟩
      have hlt : g.unmeasured.card < f.unmeasured.card :=
        Finset.card_lt_card (Finset.ssubset_iff_of_subset hset.unmeasured_subset |>.2
          ⟨i, hmem, hnot⟩)
      obtain ⟨us, f', htakes, hnodup, hus, hrep', hnil, hset'⟩ := ih _ (hn ▸ hlt) hrep rfl
      refine ⟨i :: us, f', .next ho hg htakes,
        List.nodup_cons.2 ⟨fun hi => hnot (hus i hi), hnodup⟩, ?_, hrep', hnil,
        ⟨hset'.size_eq.trans hset.size_eq, hset'.clock_eq.trans hset.clock_eq,
          hset'.unmeasured_subset.trans hset.unmeasured_subset⟩⟩
      intro u hu
      rcases List.mem_cons.1 hu with rfl | hu
      · exact hmem
      · exact hset.unmeasured_subset (hus u hu)

/-- Nodes that were not measured and are listed once are no more than there are. -/
theorem length_le_card_unmeasured {us : List Nat} (hnodup : us.Nodup)
    (hus : ∀ u ∈ us, u ∈ f.unmeasured) : us.length ≤ f.unmeasured.card := by
  rw [← List.toFinset_card_of_nodup hnodup]
  exact Finset.card_le_card fun u hu => hus u (List.mem_toFinset.1 hu)

/-- **A phase** ends, settles no more orphans than are not measured at its start, and leaves no
orphan. -/
theorem adoptAll_spec (hN : N.WellFormed) (hR : R.Within N) (h : f.Repairing R held) :
    ∃ f' c, EndsWithin f.unmeasured.card (adoptAll R.arcs f) (f', c) ∧ f'.Repairing R held ∧
      f'.orphans.order = [] ∧ f.Settling f' ∧ c ≤ f.unmeasured.card := by
  obtain ⟨us, f', htakes, hnodup, hus, hrep, hnil, hset⟩ := exists_takes hN hR h
  have hle := length_le_card_unmeasured hnodup hus
  exact ⟨f', us.length, htakes.adoptAll_eq.mono hle, hrep, hnil, hset, hle⟩

/-- Once no orphan is listed, the forest is as at a head of the loop. -/
theorem Repairing.ready (h : f.Repairing R held) (ho : f.orphans.order = []) : f.Ready R held :=
  ⟨h.sound, h.ordered, h.listed.settled ho, h.listed, h.tracks, h.watched⟩

/-- **A whole phase** succeeds, settles no more orphans than there are nodes, and leaves none. -/
theorem adopt_spec (hN : N.WellFormed) (hR : R.Within N) (h : f.Repairing R held) :
    ∃ f' c, f.adopt R.arcs = .ok (f', c) ∧ f'.Ready R held ∧ f.Settling f' ∧
      c ≤ f.labels.size := by
  have hcard := f.card_unmeasured_le
  obtain ⟨f', c, hok, hrep, hnil, hset, hle⟩ := adoptAll_spec hN hR h
  exact ⟨f', c, hok _ hcard, hrep.ready hnil, hset, Nat.le_trans hle hcard⟩

end Forest

end MinCut
