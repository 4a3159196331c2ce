/-
# Leaving a tree

An orphan that finds no parent leaves its tree.  At that moment its children hang on a free
node, and nodes around it that could not grow before may now grow back to it.  The arcs
around it are gone through one by one, and each settles one neighbour: a child is orphaned in
turn, and a node that could grow back is made active.  So whatever is wrong with the forest is
wrong along one of the arcs still ahead.

Key facts:
* `Releasing` : a forest that is sound and watched but for the arcs still ahead;
* `releaseAlong_spec` : one arc;
* `releaseAll_spec` : one arc after the other, by induction on the list.
-/
import MinCut.Proofs.Measuring
import MinCut.Proofs.Pushing

namespace MinCut

namespace Forest

variable {R : Residual} {N : Network} {f f' : Forest} {i j u v w : Nat} {l m : Label}
variable {a : ArcRef} {as bs : List ArcRef} {side : Segment} {held : Option Nat}

/-- The forest while the node `i` leaves the tree `side`: a child of `i` is found along one of
the arcs `as`, and a node that could grow back to `i` along one of the arcs `bs`. -/
structure Releasing (R : Residual) (held : Option Nat) (i : Nat) (side : Segment)
    (as bs : List ArcRef) (f : Forest) : Prop where
  size_eq : f.labels.size = R.excess.size
  root_of_excess : ∀ u, R.excessAt u ≠ 0 → ∃ l, f.label u = some l ∧ l.parent = .root
  bound : ∀ u l, f.label u = some l → l.parent = .root →
    l.side = .source ∧ 0 < R.excessAt u ∨ l.side = .sink ∧ R.excessAt u < 0
  hung : ∀ u l a, f.label u = some l → l.parent = .via a →
    ∃ v, R.arcs.Leads a u v ∧ 0 < R.arcs.capacity (treeArc l.side a) ∧
      ((∃ m, f.label v = some m ∧ m.side = l.side) ∨
        v = i ∧ l.side = side ∧ ∃ b ∈ as, R.arcs.Leads b i u)
  free : f.label i = none
  ordered : f.Ordered R.arcs
  exact : f.Exact R.arcs
  listed : f.Listed
  tracks : f.active.Tracks f.labels.size held
  watched : ∀ u, u ∉ f.active.waiting → held ≠ some u → ∀ l b v, f.label u = some l →
    R.arcs.Leads b u v → 0 < R.arcs.capacity (treeArc l.side b.sister) →
      (∃ m, f.label v = some m ∧ m.side = l.side) ∨ v = i ∧ l.side = side ∧ b.sister ∈ bs

/-- A forest with no arc ahead is sound. -/
theorem Releasing.sound (h : Releasing R held i side [] bs f) : f.Sound R where
  size_eq := h.size_eq
  root_of_excess := h.root_of_excess
  bound := h.bound
  hung u l a hu hp := by
    obtain ⟨v, ha, hc, ⟨m, hm, hs⟩ | ⟨-, -, b, hb, -⟩⟩ := h.hung u l a hu hp
    · exact ⟨v, m, ha, hm, hs, hc⟩
    · simp at hb

/-- A forest with no arc ahead is watched. -/
theorem Releasing.watched_of_nil (h : Releasing R held i side as [] f) : f.Watched R held := by
  intro u hu hspared l b v hl hb hc
  rcases h.watched u hu hspared l b v hl hb hc with hm | ⟨-, -, hmem⟩
  · exact hm
  · simp at hmem

/-- The arcs that lead to no node of the tree settle nothing. -/
theorem Releasing.skip (h : Releasing R held i side (a :: as) (a :: bs) f)
    (ha : R.arcs.Leads a i j) (hj : ∀ m, f.label j = some m → m.side ≠ side) :
    Releasing R held i side as bs f :=
  { h with
    hung := fun u l b hu hp => by
      obtain ⟨v, hb, hc, hm | ⟨hv, hs, c, hmem, hlead⟩⟩ := h.hung u l b hu hp
      · exact ⟨v, hb, hc, Or.inl hm⟩
      · refine ⟨v, hb, hc, Or.inr ⟨hv, hs, c, ?_, hlead⟩⟩
        rcases List.mem_cons.1 hmem with rfl | hmem
        · obtain ⟨-, rfl⟩ := hlead.unique ha
          exact absurd hs (hj l hu)
        · exact hmem
    watched := fun u hu hspared l b v hl hb hc => by
      rcases h.watched u hu hspared l b v hl hb hc with hm | ⟨hv, hs, hmem⟩
      · exact Or.inl hm
      · refine Or.inr ⟨hv, hs, ?_⟩
        rcases List.mem_cons.1 hmem with heq | hmem
        · obtain ⟨-, rfl⟩ := (heq ▸ hb.sister).unique ha
          exact absurd hs (hj l hl)
        · exact hmem }

/-- A node that could grow back is made active, and others need not be. -/
theorem Releasing.activate (h : Releasing R held i side as (a :: bs) f)
    (ha : R.arcs.Leads a i j) (hj : j < f.labels.size) :
    ∃ q, (0 < R.arcs.capacity (treeArc side a) → f.activate j = .ok { f with active := q }) ∧
      (¬ 0 < R.arcs.capacity (treeArc side a) → q = f.active) ∧
      Releasing R held i side as bs { f with active := q } := by
  have hahead : ∀ q : ActiveQueue, (∀ u, u ∈ f.active.waiting → u ∈ q.waiting) →
      (0 < R.arcs.capacity (treeArc side a) → j ∈ q.waiting ∨ held = some j) →
      ∀ u, u ∉ q.waiting → held ≠ some u → ∀ l b v, f.label u = some l →
        R.arcs.Leads b u v → 0 < R.arcs.capacity (treeArc l.side b.sister) →
          (∃ m, f.label v = some m ∧ m.side = l.side) ∨ v = i ∧ l.side = side ∧ b.sister ∈ bs := by
    intro q hsub hself u hu hspared l b v hl hb hc
    rcases h.watched u (fun hw => hu (hsub u hw)) hspared l b v hl hb hc with hm | ⟨hv, hs, hmem⟩
    · exact Or.inl hm
    · refine Or.inr ⟨hv, hs, ?_⟩
      rcases List.mem_cons.1 hmem with heq | hmem
      · obtain ⟨-, rfl⟩ := (heq ▸ hb.sister).unique ha
        rw [heq, hs] at hc
        rcases hself hc with hw | hw
        · exact absurd hw hu
        · exact absurd hw hspared
      · exact hmem
  by_cases hc : 0 < R.arcs.capacity (treeArc side a)
  · obtain ⟨q, hq, ht, hmem⟩ := activate_ok h.tracks hj
    have hself : j ∈ q.waiting ∨ held = some j := by
      by_cases hheld : held = some j
      · exact Or.inr hheld
      · exact Or.inl ((hmem j).2 (Or.inr ⟨rfl, hheld⟩))
    exact ⟨q, fun _ => hq, fun hn => absurd hc hn, h.size_eq, h.root_of_excess, h.bound, h.hung,
      h.free, h.ordered.of_labels rfl (Nat.le_refl _), h.exact, h.listed.of_labels rfl rfl, ht,
      hahead q (fun u hu => (hmem u).2 (Or.inl hu)) fun _ => hself⟩
  · refine ⟨f.active, fun hp => absurd hp hc, fun _ => rfl, { h with watched := ?_ }⟩
    exact hahead f.active (fun _ hu => hu) fun hc' => absurd hc' hc

/-- A node that hangs on something else than `i` keeps its parent. -/
theorem Releasing.keep (h : Releasing R held i side (a :: as) bs f) (ha : R.arcs.Leads a i j)
    (hm : f.label j = some m) (hp : ∀ p, m.parent = .via p → ¬ R.arcs.Leads p j i) :
    Releasing R held i side as bs f :=
  { h with
    hung := fun u l b hu hl => by
      obtain ⟨v, hb, hc, hv | ⟨hv, hs, c, hmem, hlead⟩⟩ := h.hung u l b hu hl
      · exact ⟨v, hb, hc, Or.inl hv⟩
      · refine ⟨v, hb, hc, Or.inr ⟨hv, hs, c, ?_, hlead⟩⟩
        rcases List.mem_cons.1 hmem with rfl | hmem
        · obtain ⟨-, rfl⟩ := hlead.unique ha
          rw [hm] at hu
          cases hu
          exact absurd (hv ▸ hb) (hp b hl)
        · exact hmem }

/-! ## Orphaning a child -/

/-- A child of the node that leaves was not measured: a measured node hangs on a measured one. -/
theorem Releasing.stamp_ne {p : ArcRef} (h : Releasing R held i side as bs f)
    (hm : f.label j = some m) (hp : m.parent = .via p) (hlead : R.arcs.Leads p j i) :
    m.stamp ≠ f.clock := by
  intro hs
  rcases h.exact j m hm hs with ⟨hroot, -⟩ | ⟨b, v, k, hvia, hb, hk, -⟩
  · rw [hp] at hroot
    cases hroot
  · rw [hp] at hvia
    cases hvia
    obtain ⟨-, rfl⟩ := hb.unique hlead
    rw [h.free] at hk
    cases hk

/-- **A child is orphaned**, and the arc to it is settled. -/
theorem Releasing.orphanBelow {p : ArcRef} (h : Releasing R held i side (a :: as) bs f)
    (ha : R.arcs.Leads a i j) (hm : f.label j = some m) (hp : m.parent = .via p)
    (hlead : R.arcs.Leads p j i) : Releasing R held i side as bs (f.orphanBelow j m) := by
  have hlabel : ∀ w, (f.orphanBelow j m).label w = if j = w then some m.orphaned else f.label w :=
    fun w => label_orphanBelow (lt_of_label hm)
  have hext : f.Extends (f.orphanBelow j m) := extends_cutOff hm
  have hji : j ≠ i := by
    rintro rfl
    rw [h.free] at hm
    cases hm
  have hstamp := h.stamp_ne hm hp hlead
  refine ⟨?_, ?_, ?_, ?_, ?_, ?_, ?_, ?_, ?_, ?_⟩
  · rw [← h.size_eq]
    exact size_setLabel f j _
  · intro u hu
    obtain ⟨l, hl, hroot⟩ := h.root_of_excess u hu
    have hju : j ≠ u := by
      rintro rfl
      rw [hm] at hl
      cases hl
      rw [hp] at hroot
      cases hroot
    exact ⟨l, by rw [hlabel, if_neg hju, hl], hroot⟩
  · intro u l hu hl
    rw [hlabel] at hu
    split at hu
    · cases hu
      cases hl
    · exact h.bound u l hu hl
  · intro u l b hu hl
    rw [hlabel] at hu
    split at hu
    · cases hu
      cases hl
    · rename_i hju
      obtain ⟨v, hb, hc, ⟨k, hk, hs⟩ | ⟨hv, hs, c, hmem, hcl⟩⟩ := h.hung u l b hu hl
      · obtain ⟨k', hk', hs'⟩ := hext v k hk
        exact ⟨v, hb, hc, Or.inl ⟨k', hk', hs'.trans hs⟩⟩
      · refine ⟨v, hb, hc, Or.inr ⟨hv, hs, c, ?_, hcl⟩⟩
        -- the arc just settled leads to the orphan, which hangs on nothing
        rcases List.mem_cons.1 hmem with rfl | hmem
        · obtain ⟨-, rfl⟩ := hcl.unique ha
          exact absurd rfl hju
        · exact hmem
  · rw [hlabel, if_neg hji, h.free]
  · exact (h.ordered.cutOff hm).of_labels rfl (Nat.le_refl _)
  · apply h.exact.setLabel (lt_of_label hm)
    · intro k hk
      rw [hm] at hk
      cases hk
      exact hstamp
    · intro k hk hs
      cases hk
      exact absurd hs hstamp
  · apply h.listed.enlist hm (by simp [hp]) hlabel
    show (f.orphans.pushCascade j).order.Perm _
    rw [OrphanList.order_pushCascade]
    exact List.perm_middle
  · show f.active.Tracks (f.setLabel j _).labels.size held
    rw [size_setLabel]
    exact h.tracks
  · intro u hu hspared l b v hl hb hc
    obtain ⟨k, hk, hks⟩ := cutOff_extends hm u l hl
    rw [← hks] at hc ⊢
    rcases h.watched u hu hspared k b v hk hb hc with ⟨k', hk', hs'⟩ | hahead
    · obtain ⟨k'', hk'', hs''⟩ := hext v k' hk'
      exact Or.inl ⟨k'', hk'', hs''.trans hs'⟩
    · exact Or.inr hahead

/-! ## Going through the arcs -/

/-- The nodes of the trees that were not measured at the present time. -/
def unmeasured (f : Forest) : Finset Nat :=
  (Finset.range f.labels.size).filter fun u => (f.label u).any fun l => l.stamp != f.clock

theorem mem_unmeasured : u ∈ f.unmeasured ↔ ∃ l, f.label u = some l ∧ l.stamp ≠ f.clock := by
  simp only [unmeasured, Finset.mem_filter, Finset.mem_range]
  constructor
  · rintro ⟨-, hany⟩
    cases hl : f.label u with
    | none =>
      rw [hl] at hany
      cases hany
    | some l =>
      rw [hl] at hany
      exact ⟨l, rfl, by simpa using hany⟩
  · rintro ⟨l, hl, hs⟩
    refine ⟨lt_of_label hl, ?_⟩
    rw [hl]
    simpa using hs

theorem card_unmeasured_le (f : Forest) : f.unmeasured.card ≤ f.labels.size := by
  have hle : f.unmeasured.card ≤ (Finset.range f.labels.size).card :=
    Finset.card_le_card (Finset.filter_subset _ _)
  rwa [Finset.card_range] at hle

/-- What the steps of a phase leave alone, and that they do not undo a measurement. -/
structure Settling (f f' : Forest) : Prop where
  size_eq : f'.labels.size = f.labels.size
  clock_eq : f'.clock = f.clock
  unmeasured_subset : f'.unmeasured ⊆ f.unmeasured

theorem Settling.refl (f : Forest) : f.Settling f := ⟨rfl, rfl, Finset.Subset.refl _⟩

theorem Settling.trans {g : Forest} (h : f.Settling f') (h' : f'.Settling g) : f.Settling g :=
  ⟨h'.size_eq.trans h.size_eq, h'.clock_eq.trans h.clock_eq,
    h'.unmeasured_subset.trans h.unmeasured_subset⟩

/-- A label that is measured, or none, undoes no measurement. -/
theorem settling_setLabel {o : Option Label} (hi : i < f.labels.size)
    (ho : ∀ k, o = some k → k.stamp = f.clock) :
    f.Settling (f.setLabel i o) ∧ i ∉ (f.setLabel i o).unmeasured := by
  refine ⟨⟨size_setLabel f i o, rfl, ?_⟩, ?_⟩
  · intro u hu
    obtain ⟨k, hk, hks⟩ := mem_unmeasured.1 hu
    rw [label_setLabel hi] at hk
    split at hk
    · exact absurd (ho k hk) hks
    · exact mem_unmeasured.2 ⟨k, hk, hks⟩
  · intro hmem
    obtain ⟨k, hk, hks⟩ := mem_unmeasured.1 hmem
    rw [label_setLabel hi, if_pos rfl] at hk
    exact hks (ho k hk)

/-- Orphaning a node leaves its measurement. -/
theorem settling_orphanBelow (hm : f.label j = some m) : f.Settling (f.orphanBelow j m) := by
  refine ⟨size_setLabel f j _, rfl, ?_⟩
  intro u hu
  obtain ⟨l, hl, hs⟩ := mem_unmeasured.1 hu
  rw [label_orphanBelow (lt_of_label hm)] at hl
  split at hl
  · rename_i hju
    subst hju
    cases hl
    exact mem_unmeasured.2 ⟨m, hm, hs⟩
  · exact mem_unmeasured.2 ⟨l, hl, hs⟩

/-- What becomes of a node labelled `m` that may be a child of `i`. -/
def disown (t : ArcTable) (i j : Nat) (m : Label) (f : Forest) : Except Fault Forest :=
  match m.parent with
  | .via p => do
    let v ← t.head p
    if v = i then return f.orphanBelow j m else return f
  | .root => return f
  | .orphan => return f

/-- **A node that is disowned** is orphaned if it hangs on `i`, and left as it is otherwise. -/
theorem disown_cases {t : ArcTable} (h : disown t i j m f = .ok f') :
    f' = f ∨ ∃ p, m.parent = .via p ∧ t.head p = .ok i ∧ f' = f.orphanBelow j m := by
  unfold disown at h
  cases hp : m.parent with
  | root | orphan =>
    rw [hp] at h
    exact .inl (Except.ok.inj h).symm
  | via p =>
    simp only [hp] at h
    obtain ⟨v, hv, h'⟩ := bind_eq_ok_iff.1 h
    split at h'
    · rename_i hvi
      subst hvi
      exact .inr ⟨p, rfl, hv, (Except.ok.inj h').symm⟩
    · exact .inl (Except.ok.inj h').symm

/-- **What one arc can lead to** around a node that leaves the tree `side`: the node that it enters
is in another tree or in none, and nothing happens; or it is disowned, after it was queued if it
could grow back. -/
theorem releaseAlong_cases {t : ArcTable} (h : releaseAlong t side i f a = .ok f') :
    ∃ j, t.head a = .ok j ∧
      ((f' = f ∧ ∀ m, f.labels[j]? = some (some m) → m.side ≠ side) ∨
        ∃ m c, f.labels[j]? = some (some m) ∧ m.side = side ∧ t.treeResidual side a = .ok c ∧
          ((0 < c ∧ ∃ q, f.active.push j = .ok q ∧
              disown t i j m { f with active := q } = .ok f') ∨
            ¬ 0 < c ∧ disown t i j m f = .ok f')) := by
  obtain ⟨j, hj, h⟩ := bind_eq_ok_iff.1 h
  obtain ⟨o, ho, h⟩ := bind_eq_ok_iff.1 h
  have hget := fetch_eq_ok_iff.1 ho
  refine ⟨j, hj, ?_⟩
  cases o with
  | none =>
    obtain rfl := Except.ok.inj h
    refine .inl ⟨rfl, fun m hm => ?_⟩
    rw [hget] at hm
    cases hm
  | some m =>
    simp only at h
    split at h
    · rename_i hside
      obtain rfl := Except.ok.inj h
      refine .inl ⟨rfl, fun m' hm' => ?_⟩
      rw [hget] at hm'
      cases hm'
      exact hside
    · rename_i hside
      obtain ⟨c, hc, h⟩ := bind_eq_ok_iff.1 h
      refine .inr ⟨m, c, hget, not_not.1 hside, hc, ?_⟩
      split at h
      · obtain ⟨f₁, hf₁, h⟩ := bind_eq_ok_iff.1 h
        obtain ⟨q, hq, hf₁⟩ := bind_eq_ok_iff.1 hf₁
        obtain rfl := Except.ok.inj hf₁
        exact .inl ⟨‹_›, q, hq, h⟩
      · exact .inr ⟨‹_›, h⟩

theorem disown_spec (h : Releasing R held i side (a :: as) bs f) (ha : R.arcs.Leads a i j)
    (hm : f.label j = some m) :
    ∃ f', disown R.arcs i j m f = .ok f' ∧ Releasing R held i side as bs f' ∧ f.Settling f' := by
  unfold disown
  cases hp : m.parent with
  | via p =>
    obtain ⟨v, hv, -, -⟩ := h.hung j m p hm hp
    simp only [hv.head_eq, bind, Except.bind, pure, Except.pure]
    by_cases hvi : v = i
    · subst hvi
      exact ⟨_, if_pos rfl, h.orphanBelow ha hm hp hv, settling_orphanBelow hm⟩
    · refine ⟨f, if_neg hvi, h.keep ha hm ?_, .refl f⟩
      intro b hb hlead
      rw [hp] at hb
      cases hb
      exact hvi (hv.unique hlead).2
  | root =>
    refine ⟨f, rfl, h.keep ha hm ?_, .refl f⟩
    intro b hb _
    rw [hp] at hb
    cases hb
  | orphan =>
    refine ⟨f, rfl, h.keep ha hm ?_, .refl f⟩
    intro b hb _
    rw [hp] at hb
    cases hb

/-- **One arc** around a node that leaves its tree. -/
theorem releaseAlong_spec (hN : N.WellFormed) (hR : R.Within N)
    (h : Releasing R held i side (a :: as) (a :: bs) f) (ha : R.arcs.Leads a i j) :
    ∃ f', releaseAlong R.arcs side i f a = .ok f' ∧ Releasing R held i side as bs f' ∧
      f.Settling f' := by
  have hj : j < f.labels.size := by
    rw [h.size_eq, hR.size_eq]
    exact (hR.arcs.lt_of_leads hN ha).2
  have hskip : (∀ m, f.label j = some m → m.side ≠ side) →
      Releasing R held i side as bs f := h.skip ha
  unfold releaseAlong
  simp only [ha.head_eq, fetch_labels hj, treeResidual_eq ha, bind, Except.bind, pure, Except.pure]
  cases hm : f.label j with
  | none =>
    refine ⟨f, rfl, hskip ?_, .refl f⟩
    intro m hm'
    rw [hm] at hm'
    cases hm'
  | some m =>
    by_cases hside : m.side = side
    · obtain ⟨q, hact, hstay, hq⟩ := h.activate ha hj
      obtain ⟨f', hok, hf', hset⟩ := disown_spec (f := { f with active := q }) hq ha hm
      have hset' : f.Settling f' := ⟨hset.size_eq, hset.clock_eq, hset.unmeasured_subset⟩
      simp only [if_neg (not_not.2 hside)]
      by_cases hc : 0 < R.arcs.capacity (treeArc side a)
      · rw [if_pos hc, hact hc]
        exact ⟨f', hok, hf', hset'⟩
      · rw [if_neg hc]
        rw [hstay hc] at hok
        exact ⟨f', hok, hf', hset'⟩
    · simp only [if_pos hside]
      refine ⟨f, rfl, hskip ?_, .refl f⟩
      intro m' hm'
      rw [hm] at hm'
      cases hm'
      exact hside

/-- **One arc after the other** around a node that leaves its tree, by induction on the arcs that
are gone through. -/
theorem releaseAll_spec (hN : N.WellFormed) (hR : R.Within N)
    (has : ∀ a ∈ as, ∃ j, R.arcs.Leads a i j)
    (h : Releasing R held i side (as ++ bs) (as ++ bs) f) :
    ∃ f', releaseAll R.arcs side i f as = .ok f' ∧ Releasing R held i side bs bs f' ∧
      f.Settling f' := by
  induction as generalizing f with
  | nil => exact ⟨f, rfl, h, .refl f⟩
  | cons a as ih =>
    obtain ⟨j, ha⟩ := has a List.mem_cons_self
    obtain ⟨g, hok, hg, hset⟩ := releaseAlong_spec hN hR h ha
    obtain ⟨f', hok', hf', hset'⟩ := ih (fun b hb => has b (List.mem_cons_of_mem a hb)) hg
    refine ⟨f', ?_, hf', hset.trans hset'⟩
    unfold releaseAll
    rw [hok]
    exact hok'

end Forest

end MinCut
