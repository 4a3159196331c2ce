/-
# The forest at the heads

What the invariant of the loop says, read off the labels, the residual capacities and the queue
themselves.  At every head of every solve the labels make up two trees: exactly the nodes with an
excess are roots, and every other node of a tree hangs on a node of its own tree by an arc that
leaves it and has residual capacity, so that following parents leads up to a root and meets no
node twice.  A node of a tree that neither waits nor is held has no arc along which its tree
could grow, and when the loop ends no node has one.

Key facts:
* `Ready.isSearchForest` : the forest at a head is made of two trees;
* `Exhausted.cannotGrow` : an exhausted node has no arc along which its tree could grow;
* `heads_isSearchForest` and `heads_cannotGrow` : both at every head of every solve.
-/
import MinCut.Forest.Chain
import MinCut.Proofs.Heads

namespace MinCut

/-! ## Two trees -/

/-- **A search forest** over a residual network: two trees, one of which carries flow from roots
with a positive excess and the other one to roots with a negative excess. -/
structure Forest.IsSearchForest (R : Residual) (f : Forest) : Prop where
  size_eq : f.labels.size = R.excess.size
  not_orphan : ∀ (u : Nat) (l : Label), f.labels[u]? = some (some l) → l.parent ≠ .orphan
  root_iff : ∀ (u : Nat) (x : Int), R.excess[u]? = some x →
    ((∃ l : Label, f.labels[u]? = some (some l) ∧ l.parent = .root) ↔ x ≠ 0)
  root_side : ∀ (u : Nat) (x : Int) (l : Label), R.excess[u]? = some x →
    f.labels[u]? = some (some l) → l.parent = .root → (l.side = .sink ↔ x < 0)
  via : ∀ (u : Nat) (l : Label) (a : ArcRef), f.labels[u]? = some (some l) → l.parent = .via a →
    (∃ as, R.arcs.around u = .ok as ∧ a ∈ as) ∧ R.arcs.head a.sister = .ok u ∧
      ∃ (p : Nat) (m : Label) (c : Int), R.arcs.head a = .ok p ∧ f.labels[p]? = some (some m) ∧
        m.side = l.side ∧ R.arcs.treeResidual l.side a = .ok c ∧ 0 < c
  chain : ∀ (u : Nat) (l : Label), f.labels[u]? = some (some l) →
    ∃ vs, Forest.Chain R.arcs f u vs ∧ vs.Nodup

namespace Forest

variable {R : Residual} {N : Network} {f : Forest} {t : ArcTable} {u v : Nat} {l : Label}
variable {a : ArcRef} {held : Option Nat}

/-- **The forest at the head of the loop** is made of two trees. -/
theorem Ready.isSearchForest (hN : N.WellFormed) (hR : R.Within N) (h : f.Ready R held) :
    f.IsSearchForest R where
  size_eq := h.sound.size_eq
  not_orphan u l hl := h.settled u l (label_eq_some_iff.2 hl)
  root_iff u x hx := by
    have hat : R.excessAt u = x := by simp [Residual.excessAt, hx]
    constructor
    · rintro ⟨l, hl, hp⟩
      rcases h.sound.bound u l (label_eq_some_iff.2 hl) hp with ⟨-, hpos⟩ | ⟨-, hneg⟩ <;> omega
    · intro hne
      obtain ⟨l, hl, hp⟩ := h.sound.root_of_excess u (by omega)
      exact ⟨l, label_eq_some_iff.1 hl, hp⟩
  root_side u x l hx hl hp := by
    have hat : R.excessAt u = x := by simp [Residual.excessAt, hx]
    rcases h.sound.bound u l (label_eq_some_iff.2 hl) hp with ⟨hs, hpos⟩ | ⟨hs, hneg⟩
    · rw [hs]
      simp only [reduceCtorEq, false_iff]
      omega
    · rw [hs]
      simp only [true_iff]
      omega
  via u l a hl hp := by
    have hl' := label_eq_some_iff.2 hl
    obtain ⟨p, m, ha, hm, hs, hc⟩ := h.sound.hung u l a hl' hp
    have hu : u < N.numNodes := (hR.arcs.lt_of_leads hN ha).1
    have hne : u ≠ p := h.ordered.ne_of_leads hl' hp ha
    exact ⟨⟨_, hR.arcs.around_eq u hu, hR.arcs.mem_around.2 ⟨p, ha, hne⟩⟩, ha.sister.head_eq,
      p, m, _, ha.head_eq, label_eq_some_iff.1 hm, hs, treeResidual_eq ha l.side, hc⟩
  chain u l hl := by
    obtain ⟨p, hp⟩ := exists_climbs h.sound h.ordered (label_eq_some_iff.2 hl)
    obtain ⟨k, hk, hroot | horphan⟩ := hp.root_label
    · exact ⟨p.nodes, hp.chain hk hroot, hp.nodup h.ordered⟩
    · exact absurd horphan (h.settled _ k hk)

/-! ## Arcs along which a tree could grow -/

/-- Of the arc `a` that leaves a node and its sister, the one that must have residual capacity for
the node to grow its tree along `a`: the source tree sends flow out of the node and the sink tree
into it. -/
def growthArc (side : Segment) (a : ArcRef) : ArcRef :=
  match side with
  | .source => a
  | .sink => a.sister

/-- The tree of a claimed node is the one that grew. -/
theorem growthArc_eq (side : Segment) (a : ArcRef) : growthArc side a = treeArc side a.sister := by
  cases side with
  | source => exact a.sister_sister.symm
  | sink => rfl

/-- **The tree `side` cannot grow** from its node `u`: every arc around `u` along which it could
leads to a node of the same tree. -/
def CannotGrow (R : Residual) (f : Forest) (u : Nat) (side : Segment) : Prop :=
  ∃ as, R.arcs.around u = .ok as ∧ ∀ a ∈ as, ∃ (v : Nat) (c : Int), R.arcs.head a = .ok v ∧
    R.arcs.residual (growthArc side a) = .ok c ∧
      (0 < c → ∃ m : Label, f.labels[v]? = some (some m) ∧ m.side = side)

/-- Around an exhausted node there is no arc along which its tree could grow. -/
theorem Exhausted.cannotGrow (hR : R.Within N) (hs : f.Sound R) (h : f.Exhausted R u)
    (hu : f.label u = some l) : f.CannotGrow R u l.side := by
  refine ⟨_, hR.arcs.around_eq u (hs.lt_numNodes hR hu), ?_⟩
  intro a ha
  obtain ⟨v, hv, -⟩ := hR.arcs.mem_around.1 ha
  refine ⟨v, R.arcs.capacity (growthArc l.side a), hv.head_eq, ?_, ?_⟩
  · rw [growthArc_eq]
    exact treeResidual_eq hv.sister l.side
  · intro hc
    rw [growthArc_eq] at hc
    obtain ⟨m, hm, hside⟩ := h l a v hu hv hc
    exact ⟨m, label_eq_some_iff.1 hm, hside⟩

end Forest

/-! ## Every head of every solve -/

/-- Node 3 meets first node 1 and then node 2, which loses its parent to the second augmentation
and finds another one in node 1. -/
def detour : Network where
  edges := #[.idle 0 1 5 0, .idle 1 3 1 0, .idle 0 2 5 0, .idle 2 3 9 0, .idle 1 2 5 0]
  terminals := #[⟨10, 0⟩, ⟨0, 0⟩, ⟨0, 0⟩, ⟨0, 10⟩]

theorem detour_admissible : detour.Admissible (.signed 8) :=
  ⟨⟨by decide, by decide, by decide, by decide, by decide, by decide⟩, by decide, by decide,
    by decide +kernel⟩

section

variable {r : Register} {N : Network} {bits : Nat}

/-- **At every head of every solve** of an admissible network the labels make up two trees. -/
theorem heads_isSearchForest (hr : r.IsMachine bits) (hN : N.Admissible r) (x : Run)
    (hx : AtHead r N x) : x.search.forest.labels.size = N.numNodes ∧
      x.search.forest.IsSearchForest x.search.residual := by
  have hsound := hx.sound hr.keeps hN.toWellFormed (hN.fits hr)
  have hwithin := hsound.balances.toWithin
  exact ⟨hsound.ready.sound.size_labels hwithin,
    hsound.ready.isSearchForest hN.toWellFormed hwithin⟩

theorem heads_isSearchForest_detour : ∃ x, AtHead (.signed 8) detour x ∧
    x.search.forest.labels[2]? = some (some ⟨.source, .via ⟨4, .reverse⟩, 3, 3⟩) ∧
      x.search.forest.IsSearchForest x.search.residual := by
  obtain ⟨x, hx, hlabel⟩ := exists_atHead_of_headAfter (r := .signed 8) (N := detour) true 3
    (p := fun x => x.search.forest.labels[2]?)
    (b := some (some ⟨.source, .via ⟨4, .reverse⟩, 3, 3⟩)) (by decide +kernel)
  exact ⟨x, hx, hlabel, (heads_isSearchForest ⟨by decide, Or.inl rfl⟩ detour_admissible x hx).2⟩

/-- **No growth is missed**: at every head of every solve of an admissible network the trees cannot
grow from any of their nodes that neither waits nor is held, and once the loop has ended they
cannot grow at all. -/
theorem heads_cannotGrow (hr : r.IsMachine bits) (hN : N.Admissible r) (x : Run)
    (hx : AtHead r N x) :
    (∀ (u : Nat) (l : Label), x.search.forest.labels[u]? = some (some l) →
      u ∉ x.search.forest.active.waiting → x.held ≠ some u →
        x.search.forest.CannotGrow x.search.residual u l.side) ∧
    ∀ s, x.turn r = .ok (.finished s) → ∀ (u : Nat) (l : Label),
      s.forest.labels[u]? = some (some l) → s.forest.CannotGrow s.residual u l.side := by
  have hm := hN.fits hr
  have hsound := hx.sound hr.keeps hN.toWellFormed hm
  constructor
  · intro u l hl hwait hheld
    exact (hsound.ready.watched u hwait hheld).cannotGrow hsound.balances.toWithin
      hsound.ready.sound (Forest.label_eq_some_iff.2 hl)
  · intro s hs u l hl
    rcases Run.turn_spec hN.toWellFormed hm hsound with ⟨s', hok, hcomplete, -⟩ | ⟨y, a, hok, -⟩
    · rw [hok r hr.keeps] at hs
      cases hs
      exact (hcomplete.exhausted u).cannotGrow hcomplete.balances.toWithin hcomplete.sound
        (Forest.label_eq_some_iff.2 hl)
    · rw [hok r hr.keeps] at hs
      cases hs

theorem heads_cannotGrow_detour : ∃ x, AtHead (.signed 8) detour x ∧ x.held = some 3 ∧
    x.search.forest.active.waiting = [1, 2] ∧
      x.search.forest.CannotGrow x.search.residual 0 .source := by
  obtain ⟨x, hx, heval⟩ := exists_atHead_of_headAfter (r := .signed 8) (N := detour) true 3
    (p := fun x => (x.held, x.search.forest.active.waiting, x.search.forest.labels[0]?))
    (b := (some 3, [1, 2], some (some ⟨.source, .root, 3, 1⟩))) (by decide +kernel)
  simp only [Prod.mk.injEq] at heval
  obtain ⟨hheld, hwait, hlabel⟩ := heval
  have h := (heads_cannotGrow ⟨by decide, Or.inl rfl⟩ detour_admissible x hx).1 0 _ hlabel
    (by rw [hwait]; decide) (by rw [hheld]; decide)
  exact ⟨x, hx, hheld, hwait, h⟩

end

end MinCut
