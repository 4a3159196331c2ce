/-
# Single pushes

An augmentation is a sequence of single pushes: along the arc between the trees, along the
tree edges of both ways up, and through the two roots.  Each of them keeps the residual
network within its capacities and the forest sound: a tree edge or a terminal that is used up
costs its node the parent, and a push never opens an arc from one tree to the other.

Key facts:
* `Sound.shift`, `Watched.shift` : a push along an arc;
* `Sound.cutOff`, `Listed.cutOff` : taking the parent from a node;
* `Pushing.step` and `Pushing.root` : a push along a tree edge and through a root.
-/
import MinCut.Proofs.Choice
import MinCut.Proofs.Outset

namespace MinCut

namespace Forest

variable {R R' : Residual} {f : Forest} {u v w : Nat} {l m : Label} {a b : ArcRef} {x : Int}
variable {held : Option Nat}

/-! ## Taking the parent from a node -/

/-- The forest with the parent taken from the node `u`, which was labelled `l`. -/
def cutOff (f : Forest) (u : Nat) (l : Label) : Forest :=
  { f with
    labels := f.labels.setIfInBounds u (some l.orphaned)
    orphans := f.orphans.pushSaturated u }

theorem orphan_eq (h : f.label u = some l) : f.orphan u = .ok (f.cutOff u l) := by
  unfold orphan
  simp only [fetch_labels_of_label h, bind, Except.bind, pure, Except.pure]
  rfl

/-- Only a node of a tree can lose its parent. -/
theorem orphan_eq_ok {g : Forest} (h : f.orphan u = .ok g) :
    ∃ l, f.label u = some l ∧ g = f.cutOff u l := by
  obtain ⟨o, ho, h⟩ := bind_eq_ok_iff.1 h
  cases o with
  | none => cases h
  | some l => exact ⟨l, label_eq_some_iff.2 (fetch_eq_ok_iff.1 ho), (Except.ok.inj h).symm⟩

theorem label_cutOff (h : f.label u = some l) :
    (f.cutOff u l).label w = if u = w then some l.orphaned else f.label w :=
  label_setLabel (lt_of_label h) (some l.orphaned)

@[simp] theorem size_cutOff : (f.cutOff u l).labels.size = f.labels.size := by
  simp [cutOff]

/-- A forest stays sound if a node without an excess loses its parent. -/
theorem Sound.cutOff (h : f.Sound R) (hl : f.label u = some l) (harcs : R'.arcs = R.arcs)
    (hsize : R'.excess.size = R.excess.size) (hu : R'.excessAt u = 0)
    (hother : ∀ w, w ≠ u → R'.excessAt w = R.excessAt w) : (f.cutOff u l).Sound R' where
  size_eq := by rw [size_cutOff, h.size_eq, hsize]
  root_of_excess w hw := by
    have hwu : w ≠ u := by
      rintro rfl
      exact hw hu
    rw [hother w hwu] at hw
    rw [label_cutOff hl, if_neg (Ne.symm hwu)]
    exact h.root_of_excess w hw
  bound w k hw hp := by
    rw [label_cutOff hl] at hw
    split at hw
    · cases hw
      cases hp
    · rename_i huw
      rw [hother w (Ne.symm huw)]
      exact h.bound w k hw hp
  hung w k b hw hp := by
    rw [label_cutOff hl] at hw
    split at hw
    · cases hw
      cases hp
    · obtain ⟨y, m, ha, hm, hs, hc⟩ := h.hung w k b hw hp
      rw [harcs]
      by_cases huy : u = y
      · subst huy
        rw [hl] at hm
        cases hm
        exact ⟨u, l.orphaned, ha, by rw [label_cutOff hl, if_pos rfl], hs, hc⟩
      · exact ⟨y, m, ha, by rw [label_cutOff hl, if_neg huy, hm], hs, hc⟩

theorem Ordered.cutOff {t : ArcTable} (h : f.Ordered t) (hl : f.label u = some l) :
    (f.cutOff u l).Ordered t := by
  have hold : ∀ w k, (f.cutOff u l).label w = some k →
      ∃ k', f.label w = some k' ∧ k'.stamp = k.stamp ∧ k'.depth = k.depth ∧
        (k = k' ∨ k.parent = .orphan) := by
    intro w k hk
    rw [label_cutOff hl] at hk
    split at hk
    · rename_i huw
      subst huw
      cases hk
      exact ⟨l, hl, rfl, rfl, Or.inr rfl⟩
    · exact ⟨k, hk, rfl, rfl, Or.inl rfl⟩
  refine ⟨?_, ?_, ?_, ?_⟩
  · intro w k b y m hw hp ha hm
    obtain ⟨k', hk', hs, hd, heq⟩ := hold w k hw
    obtain ⟨m', hm', hs', hd', -⟩ := hold y m hm
    obtain rfl : k = k' := heq.resolve_right (by rw [hp]; simp)
    have hnear := h.nearer w k b y m' hk' hp ha hm'
    unfold Label.Nearer at *
    omega
  · intro w k hw
    obtain ⟨k', hk', -, hd, -⟩ := hold w k hw
    rw [← hd]
    exact h.depth_pos w k' hk'
  · intro w k hw hp
    obtain ⟨k', hk', -, -, heq⟩ := hold w k hw
    obtain rfl : k = k' := heq.resolve_right (by rw [hp]; simp)
    exact h.root_depth w k hk' hp
  · intro w k hw
    obtain ⟨k', hk', hs, -, -⟩ := hold w k hw
    rw [← hs]
    exact h.stamp_le w k' hk'

/-- The node that lost its parent is listed, once. -/
theorem Listed.cutOff (h : f.Listed) (hl : f.label u = some l) (hp : l.parent ≠ .orphan) :
    (f.cutOff u l).Listed := by
  apply h.enlist hl hp (fun w => label_cutOff hl)
  show (f.orphans.pushSaturated u).order.Perm _
  rw [OrphanList.order_pushSaturated]
  exact List.perm_middle

/-- A node that loses its parent stays in its tree. -/
theorem extends_cutOff (hl : f.label u = some l) : f.Extends (f.cutOff u l) := by
  intro w k hk
  rw [label_cutOff hl]
  split
  · rename_i huw
    subst huw
    rw [hl] at hk
    cases hk
    exact ⟨l.orphaned, rfl, rfl⟩
  · exact ⟨k, hk, rfl⟩

/-- A node that loses its parent was in its tree. -/
theorem cutOff_extends (hl : f.label u = some l) : (f.cutOff u l).Extends f := by
  intro w k hk
  rw [label_cutOff hl] at hk
  split at hk
  · rename_i huw
    subst huw
    cases hk
    exact ⟨l, hl, rfl⟩
  · exact ⟨k, hk, rfl⟩

theorem Watched.cutOff (h : f.Watched R held) (hl : f.label u = some l) :
    (f.cutOff u l).Watched R held := by
  intro w hw hspared
  apply (h w hw hspared).of_extends (extends_cutOff hl)
  intro k hk
  obtain ⟨k', hk', hs⟩ := cutOff_extends hl w k hk
  exact ⟨k', hk', hs⟩

/-! ## A push along an arc -/

/-- **A push keeps a forest sound** if it leaves capacity on the arc wherever that arc is a
tree edge. -/
theorem Sound.shift (h : f.Sound R) (ha : R.arcs.Leads a u v) (hx : 0 ≤ x)
    (hkeep : ∀ w k b, f.label w = some k → k.parent = .via b → treeArc k.side b = a →
      x < R.arcs.capacity a) :
    f.Sound { R with arcs := R.arcs.shift a x } where
  size_eq := h.size_eq
  root_of_excess := h.root_of_excess
  bound := h.bound
  hung w k b hw hp := by
    obtain ⟨y, m, hy, hm, hs, hc⟩ := h.hung w k b hw hp
    refine ⟨y, m, ArcTable.leads_shift.2 hy, hm, hs, ?_⟩
    show 0 < (R.arcs.shift a x).capacity (treeArc k.side b)
    rw [ArcTable.capacity_shift ha]
    split
    -- only the arc itself loses capacity, and some is left if a node hangs by it
    · have hlt := hkeep w k b hw hp ‹_›
      omega
    · split
      · rename_i hsis
        rw [hsis] at hc
        omega
      · exact hc

theorem Ordered.shift {t : ArcTable} (h : f.Ordered t) : f.Ordered (t.shift a x) where
  nearer w k b y m hw hp hy hm := h.nearer w k b y m hw hp (ArcTable.leads_shift.1 hy) hm
  depth_pos := h.depth_pos
  root_depth := h.root_depth
  stamp_le := h.stamp_le

/-- The reverse of a push between the nodes of one tree, or from the source tree into the sink
tree, is no arc along which a tree could grow into another one. -/
theorem Watched.shift (h : f.Watched R held) (ha : R.arcs.Leads a u v) (hu : f.label u = some l)
    (hv : f.label v = some m) (hside : l.side = .source ∨ m.side = .sink) (hx : 0 ≤ x) :
    f.Watched { R with arcs := R.arcs.shift a x } held := by
  intro w hw hspared k b y hk hb hc
  have hb' : R.arcs.Leads b w y := ArcTable.leads_shift.1 hb
  have hc' : 0 < (R.arcs.shift a x).capacity (treeArc k.side b.sister) := hc
  rw [ArcTable.capacity_shift ha] at hc'
  split at hc'
  · rename_i heq
    rw [← heq] at hc'
    exact h w hw hspared k b y hk hb' (by omega)
  · split at hc'
    · rename_i heq
      cases hs : k.side with
      | source =>
        -- the arc scanned is the sister of the one pushed along
        obtain rfl : b = a.sister := by simpa [hs, treeArc] using heq
        obtain ⟨rfl, rfl⟩ := ha.sister.unique hb'
        rw [hk] at hv
        cases hv
        exact ⟨l, hu, hside.resolve_right (by rw [hs]; simp)⟩
      | sink =>
        obtain rfl : b = a := by
          have hsis : b.sister = a.sister := by simpa [hs, treeArc] using heq
          rw [← ArcRef.sister_sister b, hsis, ArcRef.sister_sister]
        obtain ⟨rfl, rfl⟩ := ha.unique hb'
        rw [hk] at hu
        cases hu
        exact ⟨m, hv, hside.resolve_left (by rw [hs]; simp)⟩
    · exact h w hw hspared k b y hk hb' hc'

/-- Different nodes of a sound forest hang by different tree edges. -/
theorem Sound.eq_of_treeArc_eq (h : f.Sound R) (hu : f.label u = some l) (hl : l.parent = .via a)
    (hw : f.label w = some m) (hm : m.parent = .via b)
    (heq : treeArc m.side b = treeArc l.side a) : w = u := by
  obtain ⟨v, k, ha, hk, hs, -⟩ := h.hung u l a hu hl
  obtain ⟨y, -, hb, -⟩ := h.hung w m b hw hm
  by_cases hside : m.side = l.side
  · have hab : b = a := by
      rw [hside] at heq
      cases hl' : l.side <;> rw [hl'] at heq
      · rw [← ArcRef.sister_sister b, show b.sister = a.sister from heq, ArcRef.sister_sister]
      · exact heq
    subst hab
    exact (hb.unique ha).1
  · have hab : b = a.sister := by
      cases hl' : l.side <;> cases hm' : m.side <;> rw [hl', hm'] at heq hside
      · exact absurd rfl hside
      · exact heq
      · rw [← ArcRef.sister_sister b, show b.sister = a from heq]
      · exact absurd rfl hside
    subst hab
    -- the arc back leaves the parent, which is on the side of its child
    obtain ⟨rfl, -⟩ := hb.unique ha.sister
    rw [hk] at hw
    cases hw
    exact absurd hs hside

/-! ## A push through a root -/

/-- A forest stays sound if a root keeps some of its excess. -/
theorem Sound.setExcess (h : f.Sound R) (hu : u < R.excess.size) (hroot : ∃ l, f.label u = some l ∧
    l.parent = .root ∧ (l.side = .source ∧ 0 < x ∨ l.side = .sink ∧ x < 0)) :
    f.Sound (R.setExcess u x) where
  size_eq := by
    rw [h.size_eq]
    simp [Residual.setExcess]
  root_of_excess w hw := by
    rw [Residual.excessAt_setExcess hu] at hw
    split at hw
    · rename_i huw
      subst huw
      obtain ⟨l, hl, hp, -⟩ := hroot
      exact ⟨l, hl, hp⟩
    · exact h.root_of_excess w hw
  bound w k hw hp := by
    rw [Residual.excessAt_setExcess hu]
    split
    · rename_i huw
      subst huw
      obtain ⟨l, hl, -, hs⟩ := hroot
      rw [hw] at hl
      cases hl
      exact hs
    · exact h.bound w k hw hp
  hung := h.hung

/-- What a node can grow along depends on the arcs alone. -/
theorem Watched.of_arcs (h : f.Watched R held) (harcs : R'.arcs = R.arcs) : f.Watched R' held := by
  intro w hw hspared k b y hk hb hc
  rw [harcs] at hb hc
  exact h w hw hspared k b y hk hb hc

end Forest

namespace Search

/-! ## The search in the midst of an augmentation -/

/-- What holds of a search after every push of an augmentation. -/
structure Pushing (N : Network) (held : Option Nat) (s : Search) : Prop where
  within : s.residual.Within N
  sound : s.forest.Sound s.residual
  ordered : s.forest.Ordered s.residual.arcs
  listed : s.forest.Listed
  watched : s.forest.Watched s.residual held

/-- The search with `x` pushed along an arc. -/
def shift (s : Search) (a : ArcRef) (x : Int) : Search :=
  { s with residual.arcs := s.residual.arcs.shift a x }

/-- The search with another excess at one node. -/
def setExcess (s : Search) (u : Nat) (x : Int) : Search :=
  { s with residual := s.residual.setExcess u x }

/-- The search with the parent taken from the node `u`, which was labelled `l`. -/
def cutOff (s : Search) (u : Nat) (l : Label) : Search :=
  { s with forest := s.forest.cutOff u l }

/-- What is left of the excess of a root through which `x` was pushed. -/
def rest (side : Segment) (x excess : Int) : Int :=
  match side with
  | .source => excess - x
  | .sink => excess + x

variable {N : Network} {m x : Int} {r : Register} {s : Search} {a : ArcRef} {u v : Nat}
variable {l k : Label} {side : Segment} {held : Option Nat}

/-! ## What single pushes do -/

/-- A push along an arc succeeds if the arc has the capacity. -/
theorem pushArc_eq (hr : r.Keeps m) (hm : N.Fits m) (hs : s.residual.Within N)
    (ha : s.residual.arcs.Leads a u v) (hx : 0 ≤ x) (hle : x ≤ s.residual.arcs.capacity a) :
    s.pushArc r x a = .ok (s.shift a x) := by
  obtain ⟨e, he, -⟩ := hs.arcs.exists_edge ha
  have hsum := hs.arcs.capacity_add_sister he
  have hpair := hm.pair_le e (Array.mem_of_getElem? he)
  have hforth := hs.arcs.nonneg a
  have hback := hs.arcs.nonneg a.sister
  have hpush := ArcTable.pushFlow_eq_shift ha (hr _ (by omega) (by omega))
    (hr (s.residual.arcs.capacity a.sister + x) (by omega) (by omega)) (by omega)
  simp only [pushArc, hpush, bind, Except.bind, pure, Except.pure]
  rfl

/-- A push along the tree edge of a node takes the parent from the node if it uses up the
edge, and changes no label otherwise. -/
theorem pushStep_eq (hr : r.Keeps m) (hm : N.Fits m) (hs : s.residual.Within N)
    (ha : s.residual.arcs.Leads a u v) (hu : s.forest.label u = some l) (hx : 0 ≤ x)
    (hle : x ≤ s.residual.arcs.capacity (treeArc side a)) :
    s.pushStep r side x (u, a) =
      .ok (if s.residual.arcs.capacity (treeArc side a) = x then
        (s.shift (treeArc side a) x).cutOff u l else s.shift (treeArc side a) x) := by
  have hlead : ∃ y z, s.residual.arcs.Leads (treeArc side a) y z := by
    cases side with
    | source => exact ⟨v, u, ha.sister⟩
    | sink => exact ⟨u, v, ha⟩
  obtain ⟨y, z, hy⟩ := hlead
  have hres : (s.shift (treeArc side a) x).residual.arcs.treeResidual side a =
      .ok (s.residual.arcs.capacity (treeArc side a) - x) := by
    show (s.residual.arcs.shift (treeArc side a) x).treeResidual side a = _
    rw [Forest.treeResidual_eq (ArcTable.leads_shift.2 ha), ArcTable.capacity_shift hy, if_pos rfl]
  unfold pushStep
  simp only [pushArc_eq hr hm hs hy hx hle, hres, bind, Except.bind, pure, Except.pure]
  by_cases hzero : s.residual.arcs.capacity (treeArc side a) = x
  · have horphan : (s.shift (treeArc side a) x).forest.orphan u =
        .ok ((s.shift (treeArc side a) x).forest.cutOff u l) := Forest.orphan_eq hu
    rw [if_pos hzero, if_pos (by omega), horphan]
    rfl
  · rw [if_neg hzero, if_neg (by omega)]

/-- A push through a root takes the terminal from the root if it uses up the excess, and
changes no label otherwise. -/
theorem pushRoot_eq (hr : r.Keeps m) (hu : s.forest.label u = some l)
    (hlt : u < s.residual.excess.size) (hx : 0 ≤ x)
    (hle : side = .source ∧ x ≤ s.residual.excessAt u ∧ s.residual.excessAt u ≤ m ∨
      side = .sink ∧ x ≤ -s.residual.excessAt u ∧ -s.residual.excessAt u ≤ m) :
    s.pushRoot r side x u =
      .ok (if rest side x (s.residual.excessAt u) = 0 then
        (s.setExcess u 0).cutOff u l else s.setExcess u (rest side x (s.residual.excessAt u))) := by
  have hfetch : fetch s.residual.excess u = .ok (s.residual.excessAt u) := by
    simp [fetch_of_lt hlt, Residual.excessAt, hlt]
  have hdrain : drain r side x (s.residual.excessAt u) =
      .ok (rest side x (s.residual.excessAt u)) := by
    rcases hle with ⟨rfl, h₁, h₂⟩ | ⟨rfl, h₁, h₂⟩
    · exact hr _ (by omega) (by omega)
    · exact hr _ (by omega) (by omega)
  have hpast : isPastZero side (rest side x (s.residual.excessAt u)) = false := by
    rcases hle with ⟨rfl, h₁, h₂⟩ | ⟨rfl, h₁, h₂⟩
    · exact decide_eq_false (show ¬ s.residual.excessAt u - x < 0 by omega)
    · exact decide_eq_false (show ¬ 0 < s.residual.excessAt u + x by omega)
  unfold pushRoot
  simp only [hfetch, hdrain, bind, Except.bind, pure, Except.pure]
  rw [if_neg (by rw [hpast]; simp)]
  by_cases hzero : rest side x (s.residual.excessAt u) = 0
  · have horphan : s.forest.orphan u = .ok (s.forest.cutOff u l) := Forest.orphan_eq hu
    rw [if_pos hzero, if_pos hzero]
    simp only [horphan, hzero]
    rfl
  · rw [if_neg hzero, if_neg hzero]
    rfl

/-! ## What single pushes keep -/

/-- A push from the source tree into the sink tree, along an arc of neither. -/
theorem Pushing.shift (hs : s.Pushing N held) (ha : s.residual.arcs.Leads a u v)
    (hu : s.forest.label u = some l) (hl : l.side = .source) (hv : s.forest.label v = some k)
    (hk : k.side = .sink) (hx : 0 ≤ x) (hle : x ≤ s.residual.arcs.capacity a) :
    (s.shift a x).Pushing N held := by
  have hne : u ≠ v := by
    rintro rfl
    rw [hu] at hv
    cases hv
    rw [hl] at hk
    cases hk
  refine ⟨⟨hs.within.arcs.shift ha hne hx hle, hs.within.size_eq, hs.within.between⟩,
    hs.sound.shift ha hx ?_, hs.ordered.shift, hs.listed, hs.watched.shift ha hu hv (Or.inl hl) hx⟩
  intro w k' b hw hb heq
  -- a tree edge joins two nodes of one side
  obtain ⟨y, m', hy, hm', hside, -⟩ := hs.sound.hung w k' b hw hb
  cases hs' : k'.side with
  | source =>
    rw [hs'] at heq hside
    obtain ⟨-, rfl⟩ := hy.sister.unique (show s.residual.arcs.Leads b.sister u v by
      rw [show b.sister = a from heq]; exact ha)
    rw [hv] at hw
    cases hw
    rw [hk] at hs'
    cases hs'
  | sink =>
    rw [hs'] at heq
    obtain ⟨rfl, -⟩ := hy.unique (show s.residual.arcs.Leads b u v by
      rw [show b = a from heq]; exact ha)
    rw [hu] at hw
    cases hw
    rw [hl] at hs'
    cases hs'

/-- A push along the tree edge of a node. -/
theorem Pushing.step (hs : s.Pushing N held) (hu : s.forest.label u = some l)
    (hl : l.parent = .via a) (hx : 0 < x)
    (hle : x ≤ s.residual.arcs.capacity (treeArc l.side a)) :
    (if s.residual.arcs.capacity (treeArc l.side a) = x then
      (s.shift (treeArc l.side a) x).cutOff u l
    else s.shift (treeArc l.side a) x).Pushing N held := by
  obtain ⟨v, m', ha, hv, hside, hc⟩ := hs.sound.hung u l a hu hl
  have hne : u ≠ v := by
    rintro rfl
    rw [hu] at hv
    cases hv
    exact Label.not_nearer_self _ (hs.ordered.nearer u l a u l hu hl ha hu)
  -- flow takes the tree edge down in the source tree and up in the sink tree
  obtain ⟨y, z, ky, kz, hy, hyz, hky, hkz, hdir⟩ : ∃ y z ky kz,
      s.residual.arcs.Leads (treeArc l.side a) y z ∧ y ≠ z ∧ s.forest.label y = some ky ∧
        s.forest.label z = some kz ∧ (ky.side = .source ∨ kz.side = .sink) := by
    cases hs' : l.side with
    | source => exact ⟨v, u, m', l, ha.sister, hne.symm, hv, hu, Or.inl (by rw [hside, hs'])⟩
    | sink => exact ⟨u, v, l, m', ha, hne, hu, hv, Or.inr (by rw [hside, hs'])⟩
  have hwithin : (s.shift (treeArc l.side a) x).residual.Within N :=
    ⟨hs.within.arcs.shift hy hyz (by omega) hle, hs.within.size_eq, hs.within.between⟩
  have hwatched := hs.watched.shift hy hky hkz hdir (x := x) (by omega)
  by_cases hfull : s.residual.arcs.capacity (treeArc l.side a) = x
  · rw [if_pos hfull]
    -- a node that hangs on another one has no excess
    have hzero : s.residual.excessAt u = 0 := by
      by_contra hnz
      obtain ⟨l', hl', hroot⟩ := hs.sound.root_of_excess u hnz
      rw [hu] at hl'
      cases hl'
      rw [hl] at hroot
      cases hroot
    have hcut := hs.sound.cutOff hu rfl rfl hzero fun _ _ => rfl
    refine ⟨hwithin, hcut.shift hy (by omega) fun w k' b hw hb heq => ?_,
      (hs.ordered.cutOff hu).shift, hs.listed.cutOff hu (by rw [hl]; simp), hwatched.cutOff hu⟩
    -- the node that lost its parent was the only one on this edge
    rw [Forest.label_cutOff hu] at hw
    split at hw
    · cases hw
      cases hb
    · rename_i huw
      exact absurd (hs.sound.eq_of_treeArc_eq hu hl hw hb heq).symm huw
  · rw [if_neg hfull]
    exact ⟨hwithin, hs.sound.shift hy (by omega) fun w k' b _ _ _ => by omega, hs.ordered.shift,
      hs.listed, hwatched⟩

/-- A push through a root. -/
theorem Pushing.root (hs : s.Pushing N held) (hu : s.forest.label u = some l)
    (hl : l.parent = .root) (hx : 0 ≤ x)
    (hle : l.side = .source → x ≤ s.residual.excessAt u)
    (hle' : l.side = .sink → x ≤ -s.residual.excessAt u) :
    (if rest l.side x (s.residual.excessAt u) = 0 then
      (s.setExcess u 0).cutOff u l
    else s.setExcess u (rest l.side x (s.residual.excessAt u))).Pushing N held := by
  have hlt : u < s.residual.excess.size := by
    rw [← hs.sound.size_eq]
    exact Forest.lt_of_label hu
  have hsign : 0 ≤ rest l.side x (s.residual.excessAt u) ∧
        rest l.side x (s.residual.excessAt u) ≤ s.residual.excessAt u ∧ l.side = .source ∨
      rest l.side x (s.residual.excessAt u) ≤ 0 ∧
        s.residual.excessAt u ≤ rest l.side x (s.residual.excessAt u) ∧ l.side = .sink := by
    cases hs' : l.side with
    | source =>
      have h₁ := hle hs'
      exact Or.inl ⟨by simp only [rest]; omega, by simp only [rest]; omega, rfl⟩
    | sink =>
      have h₁ := hle' hs'
      exact Or.inr ⟨by simp only [rest]; omega, by simp only [rest]; omega, rfl⟩
  -- of the new excess, only its sign and its bound matter
  generalize rest l.side x (s.residual.excessAt u) = y at hsign ⊢
  have hwithin : (s.setExcess u y).residual.Within N := by
    refine ⟨hs.within.arcs, by simp [Search.setExcess, Residual.setExcess, hs.within.size_eq],
      fun v t ht => ?_⟩
    have hb := hs.within.between v t ht
    have hv := Residual.excessAt_setExcess (R := s.residual) hlt y v
    show 0 ≤ (s.residual.setExcess u y).excessAt v ∧ (s.residual.setExcess u y).excessAt v ≤ _ ∨
      _ ≤ (s.residual.setExcess u y).excessAt v ∧ (s.residual.setExcess u y).excessAt v ≤ 0
    rw [hv]
    split
    · rename_i huv
      subst huv
      omega
    · exact hb
  have hwatched : s.forest.Watched (s.setExcess u y).residual held := hs.watched.of_arcs rfl
  by_cases hzero : y = 0
  · rw [if_pos hzero]
    subst hzero
    have hat : ∀ w, (s.residual.setExcess u 0).excessAt w =
        if u = w then 0 else s.residual.excessAt w := Residual.excessAt_setExcess hlt 0
    refine ⟨hwithin, hs.sound.cutOff hu rfl
      (by simp [Search.setExcess, Search.cutOff, Residual.setExcess]) ?_ ?_,
      hs.ordered.cutOff hu, hs.listed.cutOff hu (by rw [hl]; simp), hwatched.cutOff hu⟩
    · exact (hat u).trans (if_pos rfl)
    · exact fun w hw => (hat w).trans (if_neg (Ne.symm hw))
  · rw [if_neg hzero]
    refine ⟨hwithin, hs.sound.setExcess hlt ⟨l, hu, hl, ?_⟩, hs.ordered, hs.listed, hwatched⟩
    rcases hsign with ⟨h₁, -, h₂⟩ | ⟨h₁, -, h₂⟩
    · exact Or.inl ⟨h₂, by omega⟩
    · exact Or.inr ⟨h₂, by omega⟩

end Search

end MinCut
