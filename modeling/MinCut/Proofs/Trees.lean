/-
# Sound forests

A forest is sound over a residual network if it is made of trees that can carry flow: the
nodes with an excess are the roots, each on the side of its terminal, and every other node
that hangs on something hangs on a node of its own side by a tree edge with residual capacity.
Orphans are allowed; they belong to their tree until they leave it.

A forest is ordered if a parent looks nearer to its root than its children do: it was
measured later, or at the same time and found to lie less deep.  Measurements go stale, but
this order never fails, and it is what rules out cycles.

Key facts:
* `Sound.hang` and `Ordered.hang` : hanging a node on another one of its side;
* `exists_climbs` : from every node of a tree a way leads up to a root or an orphan;
* `Climbs.nodup` : such a way repeats no node;
* `ascend_eq` : walking up finds this way.
-/
import Mathlib.Data.List.Nodup
import Mathlib.Data.Prod.Lex
import MinCut.Forest.Chain
import MinCut.Search.Augment
import MinCut.Proofs.Balance

namespace MinCut

/-! ## Labels -/

/-- As far as the measurements tell, a node labelled `m` is nearer to its root than one
labelled `l`. -/
def Label.Nearer (m l : Label) : Prop :=
  l.stamp < m.stamp ∨ l.stamp = m.stamp ∧ m.depth < l.depth

theorem Label.Nearer.trans {k l m : Label} (h : k.Nearer l) (h' : l.Nearer m) : k.Nearer m := by
  unfold Nearer at *
  omega

theorem Label.not_nearer_self (l : Label) : ¬ l.Nearer l := by
  unfold Nearer
  omega

namespace Forest

variable {N : Network} {f : Forest} {R : Residual} {t : ArcTable} {u v w : Nat} {l m : Label}
variable {a : ArcRef}

/-- The label of a node, if it is in a tree. -/
def label (f : Forest) (u : Nat) : Option Label := (f.labels[u]?).join

theorem lt_of_label (h : f.label u = some l) : u < f.labels.size := by
  unfold label at h
  cases hu : f.labels[u]? with
  | none => simp [hu] at h
  | some o => exact (Array.getElem?_eq_some_iff.1 hu).1

theorem fetch_labels (h : u < f.labels.size) : fetch f.labels u = .ok (f.label u) := by
  rw [fetch_of_lt h]
  simp [label, h]

theorem fetch_labels_of_label (h : f.label u = some l) : fetch f.labels u = .ok (some l) := by
  rw [fetch_labels (lt_of_label h), h]

theorem getElem?_labels (h : f.label u = some l) : f.labels[u]? = some (some l) := by
  rw [← fetch_eq_ok_iff, fetch_labels_of_label h]

theorem label_eq_some_iff : f.label u = some l ↔ f.labels[u]? = some (some l) := by
  constructor
  · exact getElem?_labels
  · intro h
    simp [label, h]

theorem label_setLabel (h : u < f.labels.size) (o : Option Label) :
    (f.setLabel u o).label v = if u = v then o else f.label v := by
  unfold label
  rw [labels_setLabel f u v o h]
  split <;> rfl

theorem label_orphanBelow (h : u < f.labels.size) :
    (f.orphanBelow u l).label v = if u = v then some l.orphaned else f.label v :=
  label_setLabel h (some l.orphaned)

/-! ## Soundness and order -/

/-- **A sound forest** over a residual network. -/
structure Sound (R : Residual) (f : Forest) : Prop where
  size_eq : f.labels.size = R.excess.size
  root_of_excess : ∀ u, R.excessAt u ≠ 0 → ∃ l, f.label u = some l ∧ l.parent = .root
  bound : ∀ u l, f.label u = some l → l.parent = .root →
    l.side = .source ∧ 0 < R.excessAt u ∨ l.side = .sink ∧ R.excessAt u < 0
  hung : ∀ u l a, f.label u = some l → l.parent = .via a →
    ∃ v m, R.arcs.Leads a u v ∧ f.label v = some m ∧ m.side = l.side ∧
      0 < R.arcs.capacity (treeArc l.side a)

/-- There is a label for every node of the network. -/
theorem Sound.size_labels (h : f.Sound R) (hR : R.Within N) : f.labels.size = N.numNodes :=
  h.size_eq.trans hR.size_eq

theorem Sound.lt_numNodes (h : f.Sound R) (hR : R.Within N) (hu : f.label u = some l) :
    u < N.numNodes := by
  rw [← h.size_labels hR]
  exact lt_of_label hu

/-- **An ordered forest**: parents look nearer to their roots than their children. -/
structure Ordered (t : ArcTable) (f : Forest) : Prop where
  nearer : ∀ u l a v m, f.label u = some l → l.parent = .via a → t.Leads a u v →
    f.label v = some m → m.Nearer l
  depth_pos : ∀ u l, f.label u = some l → 0 < l.depth
  root_depth : ∀ u l, f.label u = some l → l.parent = .root → l.depth = 1
  stamp_le : ∀ u l, f.label u = some l → l.stamp ≤ f.clock

/-- No node hangs on itself, for a parent looks nearer to its root. -/
theorem Ordered.ne_of_leads (ho : f.Ordered t) (hu : f.label u = some l) (hp : l.parent = .via a)
    (ha : t.Leads a u v) : u ≠ v := by
  rintro rfl
  exact l.not_nearer_self (ho.nearer u l a u l hu hp ha hu)

/-- No node waits for a parent. -/
def Settled (f : Forest) : Prop := ∀ u l, f.label u = some l → l.parent ≠ .orphan

/-- Hanging a node that is not a root on another one of its side keeps a forest sound. -/
theorem Sound.hang (h : f.Sound R) (hu : u < f.labels.size)
    (hold : ∀ k, f.label u = some k → k.parent ≠ .root ∧ k.side = l.side)
    (hl : l.parent = .via a) (ha : R.arcs.Leads a u v) (hne : u ≠ v) (hv : f.label v = some m)
    (hside : m.side = l.side) (hcap : 0 < R.arcs.capacity (treeArc l.side a)) :
    (f.setLabel u (some l)).Sound R where
  size_eq := by rw [size_setLabel, h.size_eq]
  root_of_excess w hw := by
    obtain ⟨k, hk, hp⟩ := h.root_of_excess w hw
    have huw : u ≠ w := by
      rintro rfl
      exact (hold k hk).1 hp
    exact ⟨k, by rw [label_setLabel hu, if_neg huw, hk], hp⟩
  bound w k hw hp := by
    rw [label_setLabel hu] at hw
    split at hw
    · cases hw
      rw [hl] at hp
      cases hp
    · exact h.bound w k hw hp
  hung w k b hw hp := by
    rw [label_setLabel hu] at hw
    split at hw
    · cases hw
      rename_i huw
      subst huw
      rw [hl] at hp
      cases hp
      exact ⟨v, m, ha, by rw [label_setLabel hu, if_neg hne, hv], hside, hcap⟩
    · obtain ⟨x, k', hx, hk', hs, hc⟩ := h.hung w k b hw hp
      -- what hangs on `u` still does, for `u` stays on its side
      by_cases hux : u = x
      · subst hux
        exact ⟨u, l, hx, by rw [label_setLabel hu, if_pos rfl], by rw [← hs, (hold k' hk').2], hc⟩
      · exact ⟨x, k', hx, by rw [label_setLabel hu, if_neg hux, hk'], hs, hc⟩

/-- No node hangs on a free one. -/
theorem Sound.not_leads_of_free (h : f.Sound R) (hu : f.label u = none) (hw : f.label w = some l)
    (hp : l.parent = .via a) : ¬ R.arcs.Leads a w u := by
  intro ha
  obtain ⟨v, m, hv, hm, -, -⟩ := h.hung w l a hw hp
  obtain ⟨-, rfl⟩ := hv.unique ha
  rw [hu] at hm
  cases hm

/-- Hanging a node on a nearer one keeps a forest ordered, as long as the node does not move
away from its root. -/
theorem Ordered.hang (h : f.Ordered t) (hu : u < f.labels.size)
    (hfree : f.label u = none → ∀ w k b, f.label w = some k → k.parent = .via b → ¬ t.Leads b w u)
    (hold : ∀ k, f.label u = some k → k.stamp < l.stamp ∨ k.stamp = l.stamp ∧ l.depth ≤ k.depth)
    (hl : l.parent = .via a) (ha : t.Leads a u v) (hne : u ≠ v) (hv : f.label v = some m)
    (hnear : m.Nearer l) (hdepth : 0 < l.depth) (hstamp : l.stamp ≤ f.clock) :
    (f.setLabel u (some l)).Ordered t where
  nearer w k b x k' hw hp hx hk' := by
    rw [label_setLabel hu] at hw hk'
    split at hw
    · cases hw
      rename_i huw
      subst huw
      rw [hl] at hp
      cases hp
      obtain ⟨-, rfl⟩ := ha.unique hx
      rw [if_neg hne, hv] at hk'
      cases hk'
      exact hnear
    · split at hk'
      · cases hk'
        rename_i hux
        subst hux
        -- the old label of `u` was nearer than `k`, and the new one is at least as near
        cases hk : f.label u with
        | none => exact absurd hx (hfree hk w k b hw hp)
        | some k₀ =>
          have h₁ := h.nearer w k b u k₀ hw hp hx hk
          have h₂ := hold k₀ hk
          unfold Label.Nearer at *
          omega
      · exact h.nearer w k b x k' hw hp hx hk'
  depth_pos w k hw := by
    rw [label_setLabel hu] at hw
    split at hw
    · cases hw
      exact hdepth
    · exact h.depth_pos w k hw
  root_depth w k hw hp := by
    rw [label_setLabel hu] at hw
    split at hw
    · cases hw
      rw [hl] at hp
      cases hp
    · exact h.root_depth w k hw hp
  stamp_le w k hw := by
    rw [label_setLabel hu] at hw
    split at hw
    · cases hw
      exact hstamp
    · exact h.stamp_le w k hw

/-! ## Ways up -/

/-- Following the parents of `u` leads along the steps of `p` up to the node `p.root`, which
is a root or an orphan. -/
inductive Climbs (t : ArcTable) (f : Forest) : Nat → Ascent → Prop where
  | top {u : Nat} {l : Label} : f.label u = some l → (∀ a, l.parent ≠ .via a) →
    Climbs t f u ⟨[], u⟩
  | step {u v : Nat} {l : Label} {a : ArcRef} {p : Ascent} : f.label u = some l →
    l.parent = .via a → t.Leads a u v → Climbs t f v p → Climbs t f u ⟨(u, a) :: p.steps, p.root⟩

/-- **A way leads up** from every node of a tree. -/
theorem exists_climbs {u : Nat} {l : Label} (hs : f.Sound R) (ho : f.Ordered R.arcs)
    (hu : f.label u = some l) :
    ∃ p, Climbs R.arcs f u p := by
  cases hp : l.parent with
  | root => exact ⟨_, .top hu fun a => by rw [hp]; simp⟩
  | orphan => exact ⟨_, .top hu fun a => by rw [hp]; simp⟩
  | via a =>
    obtain ⟨v, m, ha, hv, -, -⟩ := hs.hung u l a hu hp
    -- the parent was measured later, or as lately and is less deep
    have hnear := ho.nearer u l a v m hu hp ha hv
    have hstamp := ho.stamp_le v m hv
    obtain ⟨p, hclimb⟩ := exists_climbs hs ho hv
    exact ⟨_, .step hu hp ha hclimb⟩
termination_by (f.clock - l.stamp, l.depth)
decreasing_by
  rw [Prod.lex_def]
  unfold Label.Nearer at hnear
  rcases hnear with h | ⟨h, h'⟩
  · left
    simp only
    omega
  · right
    simp only
    omega

namespace Climbs

variable {p : Ascent}

/-- Every node on a way up is in a tree. -/
theorem exists_label (h : Climbs t f u p) : ∀ w ∈ p.nodes, ∃ k, f.label w = some k := by
  induction h with
  | top hu _ =>
    intro w hw
    obtain rfl : w = _ := by simpa [Ascent.nodes] using hw
    exact ⟨_, hu⟩
  | step hu _ _ _ ih =>
    intro w hw
    simp only [Ascent.nodes, List.map_cons, List.cons_append, List.mem_cons] at hw
    rcases hw with rfl | hw
    · exact ⟨_, hu⟩
    · exact ih w hw

/-- The label of every node below the end of a way up names the arc that the way takes. -/
theorem exists_step (h : Climbs t f u p) :
    ∀ q ∈ p.steps, ∃ k, f.label q.1 = some k ∧ k.parent = .via q.2 := by
  induction h with
  | top _ _ => simp
  | step hu hp _ _ ih =>
    intro q hq
    rcases List.mem_cons.1 hq with rfl | hq
    · exact ⟨_, hu, hp⟩
    · exact ih q hq

/-- The first node on a way up is where it begins. -/
theorem mem_nodes (h : Climbs t f u p) : u ∈ p.nodes := by
  cases h <;> simp [Ascent.nodes]

/-- Every later node on a way up looks nearer to the root. -/
theorem nearer (ho : f.Ordered t) (h : Climbs t f u p) (hu : f.label u = some l) :
    ∀ w ∈ p.nodes, ∀ k, f.label w = some k → w = u ∨ k.Nearer l := by
  induction h generalizing l with
  | top _ _ =>
    intro w hw k _
    exact Or.inl (by simpa [Ascent.nodes] using hw)
  | step hu' hp ha hclimb ih =>
    intro w hw k hk
    rw [hu] at hu'
    cases hu'
    simp only [Ascent.nodes, List.map_cons, List.cons_append, List.mem_cons] at hw
    rcases hw with rfl | hw
    · exact Or.inl rfl
    · obtain ⟨m, hm⟩ := hclimb.exists_label _ hclimb.mem_nodes
      have hnear := ho.nearer _ _ _ _ m hu hp ha hm
      rcases ih hm w hw k hk with rfl | hnear'
      · rw [hm] at hk
        cases hk
        exact Or.inr hnear
      · exact Or.inr (hnear'.trans hnear)

/-- **A way up repeats no node.** -/
theorem nodup (ho : f.Ordered t) (h : Climbs t f u p) : p.nodes.Nodup := by
  induction h with
  | top _ _ => simp [Ascent.nodes]
  | step hu hp ha hclimb ih =>
    simp only [Ascent.nodes, List.map_cons, List.cons_append, List.nodup_cons]
    refine ⟨?_, ih⟩
    intro hmem
    obtain ⟨m, hm⟩ := hclimb.exists_label _ hclimb.mem_nodes
    have hnear := ho.nearer _ _ _ _ m hu hp ha hm
    -- a node met again would be nearer to its root than it is
    rcases hclimb.nearer ho hm _ hmem _ hu with rfl | hnear'
    · rw [hu] at hm
      cases hm
      exact Label.not_nearer_self _ hnear
    · exact Label.not_nearer_self _ (hnear.trans hnear')

/-- A way up has fewer steps than there are nodes. -/
theorem length_lt (ho : f.Ordered t) (h : Climbs t f u p) :
    p.steps.length < f.labels.size := by
  -- no node is repeated, so there are no more of them than nodes
  have hsub : p.nodes ⊆ List.range f.labels.size := by
    intro w hw
    obtain ⟨k, hk⟩ := h.exists_label w hw
    exact List.mem_range.2 (lt_of_label hk)
  have hle := (h.nodup ho).length_le_of_subset hsub
  simp only [Ascent.nodes, List.length_append, List.length_map, List.length_singleton,
    List.length_range] at hle
  omega

/-- A way up ends at a root or an orphan. -/
theorem root_label (h : Climbs t f u p) :
    ∃ k, f.label p.root = some k ∧ (k.parent = .root ∨ k.parent = .orphan) := by
  induction h with
  | top hu hp =>
    rename_i k
    refine ⟨k, hu, ?_⟩
    cases hk : k.parent with
    | root => exact Or.inl rfl
    | orphan => exact Or.inr rfl
    | via a => exact absurd hk (hp a)
  | step _ _ _ _ ih => exact ih

/-- A way up to a root is a chain of parents. -/
theorem chain (h : Climbs t f u p) {k : Label} (hk : f.label p.root = some k)
    (hroot : k.parent = .root) : Chain t f u p.nodes := by
  induction h with
  | top hu _ =>
    rw [hu] at hk
    cases hk
    exact .root (getElem?_labels hu) hroot
  | step hu hp ha _ ih => exact .via (getElem?_labels hu) hp ha.head_eq (ih hk)

/-- Following parents leads to the end of a way up. -/
theorem atOrAbove (h : Climbs t f u p) : f.AtOrAbove t u p.root := by
  induction h with
  | top _ _ => exact .refl
  | step hu hp ha _ ih => exact .head ⟨_, _, getElem?_labels hu, hp, ha.head_eq⟩ ih

/-- Following parents leads to no node but those on the way up. -/
theorem mem_of_atOrAbove (h : Climbs t f u p) (hw : f.AtOrAbove t u w) : w ∈ p.nodes := by
  induction h with
  | top hu hnot =>
    rcases hw.cases_head with rfl | ⟨v, ⟨l, a, hl, hp, -⟩, -⟩
    · exact List.mem_singleton_self _
    · rw [label_eq_some_iff.2 hl] at hu
      cases hu
      exact absurd hp (hnot a)
  | step hu hp ha _ ih =>
    rcases hw.cases_head with rfl | ⟨v, ⟨l, a, hl, hp', ha'⟩, hrest⟩
    · exact List.mem_cons_self
    · rw [label_eq_some_iff.2 hl] at hu
      cases hu
      rw [hp] at hp'
      cases hp'
      obtain rfl := Except.ok.inj (ha.head_eq.symm.trans ha')
      exact List.mem_cons_of_mem _ (ih hrest)

/-- All nodes on a way up are on the same side. -/
theorem side_eq (hs : f.Sound R) (h : Climbs R.arcs f u p) (hu : f.label u = some l) :
    ∀ w ∈ p.nodes, ∀ k, f.label w = some k → k.side = l.side := by
  induction h generalizing l with
  | top _ _ =>
    intro w hw k hk
    obtain rfl : w = _ := by simpa [Ascent.nodes] using hw
    rw [hu] at hk
    cases hk
    rfl
  | step hu' hp ha _ ih =>
    intro w hw k hk
    rw [hu] at hu'
    cases hu'
    simp only [Ascent.nodes, List.map_cons, List.cons_append, List.mem_cons] at hw
    rcases hw with rfl | hw
    · rw [hu] at hk
      cases hk
      rfl
    · obtain ⟨v, m, hv, hm, hside, -⟩ := hs.hung _ _ _ hu hp
      obtain ⟨-, rfl⟩ := ha.unique hv
      rw [ih hm w hw k hk, hside]

end Climbs

/-- Walking up from a node finds its way, if it ends at a root. -/
theorem ascend_eq {p : Ascent} (h : Climbs t f u p) {k : Label} (hk : f.label p.root = some k)
    (hroot : k.parent = .root) :
    EndsWithin p.steps.length (fun n => f.ascend t n u) p := by
  induction h with
  | top hu _ =>
    intro n _
    rw [hu] at hk
    cases hk
    unfold ascend
    simp only [fetch_labels_of_label hu, bind, Except.bind, hroot, pure, Except.pure]
  | step hu hp ha _ ih =>
    refine (ih hk).step fun n hrest => ?_
    unfold ascend
    simp only [fetch_labels_of_label hu, bind, Except.bind, hp, ha.head_eq, hrest, pure,
      Except.pure]

end Forest

end MinCut
