/-
# What an adopt phase repairs

An augmentation leaves orphans behind, and the nodes below them hang in the air.  The adopt phase
that follows hangs such nodes elsewhere in their tree or lets them go.  The other nodes, whose
parents lead up to a root without passing an orphan, are at most measured: every step of the phase
gives a new label to the orphan that is settled or takes the parent from a child of a node that
has just left its tree, and neither of them has a chain of parents up to a root.

Key facts:
* `Spares` : no node enters a tree, and a node with a chain up to a root keeps its parent;
* `settle_spares` : settling one orphan;
* `Takes.spares` : the whole phase, by induction on the orphans that are taken;
* `adoption_repairs` : the phase after any augmentation of any solve.
-/
import MinCut.Proofs.ForestAtHeads
import MinCut.Proofs.Moments

namespace MinCut

namespace Forest

variable {R : Residual} {N : Network} {t : ArcTable} {f g h : Forest} {i u v : Nat} {l m : Label}
variable {a : ArcRef} {as : List ArcRef} {vs us : List Nat} {side : Segment} {held : Option Nat}

/-! ## Nodes without a chain -/

theorem not_chain_of_free (hu : f.label u = none) : ¬ Chain t f u vs := by
  intro hc
  cases hc with
  | root hl _ => rw [label_eq_some_iff.2 hl] at hu; cases hu
  | via hl _ _ _ => rw [label_eq_some_iff.2 hl] at hu; cases hu

theorem not_chain_of_orphan (hu : f.IsOrphan u) : ¬ Chain t f u vs := by
  obtain ⟨l, hl, hp⟩ := hu
  intro hc
  rcases hc.parent_cases hl with ⟨hp', -⟩ | ⟨a, v, ws, hp', -⟩ <;> rw [hp] at hp' <;> cases hp'

/-- The chain of a node that hangs on another one goes on from there. -/
theorem Chain.of_hangsOn (hc : Chain t f u vs) (hu : f.HangsOn t u v) : ∃ ws, Chain t f v ws := by
  obtain ⟨l, a, hl, hp, ha⟩ := hu
  rcases hc.parent_cases hl with ⟨hp', -⟩ | ⟨a', v', ws, hp', ha', -, hc'⟩
  · rw [hp] at hp'
    cases hp'
  · rw [hp] at hp'
    cases hp'
    rw [ha] at ha'
    cases ha'
    exact ⟨ws, hc'⟩

/-! ## What a phase leaves alone -/

/-- On the way from the forest `f` to `g` no node has entered a tree, and every node whose parents
led up to a root has kept its tree and its parent. -/
structure Spares (t : ArcTable) (f g : Forest) : Prop where
  sides : g.Extends f
  parent_eq : ∀ u vs l, Chain t f u vs → f.label u = some l →
    ∃ m, g.label u = some m ∧ m.side = l.side ∧ m.parent = l.parent

/-- A spared node has the chain it had. -/
theorem Spares.chain (hfg : f.Spares t g) (hc : Chain t f u vs) : Chain t g u vs := by
  induction hc with
  | root hl hp =>
    obtain ⟨m, hm, -, hp'⟩ := hfg.parent_eq _ _ _ (.root hl hp) (label_eq_some_iff.2 hl)
    exact .root (getElem?_labels hm) (hp'.trans hp)
  | via hl hp ha hc ih =>
    obtain ⟨m, hm, -, hp'⟩ := hfg.parent_eq _ _ _ (.via hl hp ha hc) (label_eq_some_iff.2 hl)
    exact .via (getElem?_labels hm) (hp'.trans hp) ha ih

theorem Spares.trans (hfg : f.Spares t g) (hgh : g.Spares t h) : f.Spares t h where
  sides := hgh.sides.trans hfg.sides
  parent_eq u vs l hc hl := by
    obtain ⟨m, hm, hside, hp⟩ := hfg.parent_eq u vs l hc hl
    obtain ⟨k, hk, hside', hp'⟩ := hgh.parent_eq u vs m (hfg.chain hc) hm
    exact ⟨k, hk, hside'.trans hside, hp'.trans hp⟩

theorem spares_of_labels (hl : g.labels = f.labels) : f.Spares t g where
  sides u m hm := ⟨m, by rw [← label_congr hl, hm], rfl⟩
  parent_eq u _ l _ hu := ⟨l, by rw [label_congr hl, hu], rfl, rfl⟩

/-- New measurements leave sides and parents alone. -/
theorem Remeasures.spares (hfg : f.Remeasures g) : f.Spares t g where
  sides u m hm := by
    obtain ⟨l, hl, hside, -⟩ := hfg.exists_label_of hm
    exact ⟨l, hl, hside.symm⟩
  parent_eq _ _ _ _ hl := hfg.exists_label hl

/-- A node without a chain may get another label on its side, or leave its tree. -/
theorem spares_setLabel {o : Option Label} (hu : u < f.labels.size)
    (hno : ∀ vs, ¬ Chain t f u vs)
    (hside : ∀ m, o = some m → ∃ l, f.label u = some l ∧ l.side = m.side) :
    f.Spares t (f.setLabel u o) where
  sides w m hm := by
    rw [label_setLabel hu] at hm
    split at hm
    · rename_i huw
      subst huw
      exact hside m hm
    · exact ⟨m, hm, rfl⟩
  parent_eq w vs l hc hl := by
    have huw : u ≠ w := by
      rintro rfl
      exact hno vs hc
    exact ⟨l, by rw [label_setLabel hu, if_neg huw, hl], rfl, rfl⟩

/-! ## Leaving a tree -/

/-- A child of a free node has no chain, so it may be orphaned. -/
theorem orphanBelow_spares {p : ArcRef} (hm : f.label u = some m) (hp : m.parent = .via p)
    (hv : t.head p = .ok v) (hfree : f.label v = none) : f.Spares t (f.orphanBelow u m) := by
  have hno : ∀ vs, ¬ Chain t f u vs := by
    intro vs hc
    obtain ⟨ws, hc'⟩ := hc.of_hangsOn ⟨m, p, getElem?_labels hm, hp, hv⟩
    exact not_chain_of_free hfree hc'
  have hset : f.Spares t (f.setLabel u (some m.orphaned)) :=
    spares_setLabel (lt_of_label hm) hno fun k hk => by
      cases hk
      exact ⟨m, hm, rfl⟩
  exact hset.trans (spares_of_labels rfl)

/-- A neighbour of a node that leaves its tree is disowned at most. -/
theorem disown_spares {j : Nat} (hi : f.label i = none) (hm : f.label j = some m)
    (h : disown t i j m f = .ok g) : f.Spares t g ∧ g.label i = none := by
  rcases disown_cases h with rfl | ⟨p, hp, hv, rfl⟩
  · exact ⟨spares_of_labels rfl, hi⟩
  · have hji : j ≠ i := by
      rintro rfl
      rw [hi] at hm
      cases hm
    exact ⟨orphanBelow_spares hm hp hv hi,
      by rw [label_orphanBelow (lt_of_label hm), if_neg hji, hi]⟩

/-- **One arc** around a node that leaves its tree. -/
theorem releaseAlong_spares (hi : f.label i = none) (h : releaseAlong t side i f a = .ok g) :
    f.Spares t g ∧ g.label i = none := by
  obtain ⟨j, -, ⟨rfl, -⟩ | ⟨m, c, hm, -, -, ⟨-, q, -, hdisown⟩ | ⟨-, hdisown⟩⟩⟩ :=
    releaseAlong_cases h
  · exact ⟨spares_of_labels rfl, hi⟩
  · have hqueued : f.Spares t { f with active := q } := spares_of_labels rfl
    obtain ⟨hspares, hi'⟩ := disown_spares (f := { f with active := q }) hi
      (label_eq_some_iff.2 hm) hdisown
    exact ⟨hqueued.trans hspares, hi'⟩
  · exact disown_spares hi (label_eq_some_iff.2 hm) hdisown

/-- **All arcs** around a node that leaves its tree. -/
theorem releaseAll_spares (hi : f.label i = none) (h : releaseAll t side i f as = .ok g) :
    f.Spares t g := by
  induction as generalizing f with
  | nil =>
    obtain rfl := Except.ok.inj h
    exact spares_of_labels rfl
  | cons a as ih =>
    obtain ⟨f₁, h₁, h⟩ := bind_eq_ok_iff.1 h
    obtain ⟨hspares, hi₁⟩ := releaseAlong_spares hi h₁
    exact hspares.trans (ih hi₁ h)

/-! ## Settling orphans -/

/-- **Settling an orphan** touches no node that has a chain up to a root, but to measure it. -/
theorem settle_spares (hN : N.WellFormed) (hR : R.Within N) (hs : f.Seeking R held i)
    (h : settle R.arcs f i = .ok g) : f.Spares R.arcs g := by
  obtain ⟨l, hl, hp⟩ := hs.exists_label
  have hi : i < N.numNodes := hs.sound.lt_numNodes hR hl
  obtain ⟨f₁, best, hconsider, hr, -⟩ :=
    considerAll_spec hN hR (fun b hb => hR.arcs.mem_around.1 hb) hs (suits_none R f i l.side)
  obtain ⟨k, hk, hside, hpk⟩ := hr.exists_label hl
  have hno : ∀ vs, ¬ Chain R.arcs f₁ i vs := fun vs =>
    not_chain_of_orphan ⟨k, getElem?_labels hk, hpk.trans hp⟩
  simp only [settle, fetch_labels_of_label hl, hR.arcs.around_eq i hi, hconsider, bind, Except.bind]
    at h
  cases best with
  | some c =>
    obtain rfl := Except.ok.inj h
    refine hr.spares.trans (spares_setLabel (lt_of_label hk) hno ?_)
    intro m hm
    cases hm
    exact ⟨k, hk, hside⟩
  | none =>
    obtain ⟨arcs, -, h⟩ := bind_eq_ok_iff.1 h
    have hfree : (f₁.setLabel i none).label i = none := by
      rw [label_setLabel (lt_of_label hk), if_pos rfl]
    have hset : f₁.Spares R.arcs (f₁.setLabel i none) :=
      spares_setLabel (lt_of_label hk) hno fun m hm => by cases hm
    exact hr.spares.trans (hset.trans (releaseAll_spares hfree h))

/-- **A whole phase** touches no node that has a chain up to a root, but to measure it. -/
theorem Takes.spares (hN : N.WellFormed) (hR : R.Within N) (h : Takes R.arcs f us g)
    (hf : f.Repairing R held) : f.Spares R.arcs g := by
  induction h with
  | done _ => exact spares_of_labels rfl
  | next hn hok _ ih =>
    rename_i f _ _ _ o _ _
    have htake : f.Spares R.arcs { f with orphans := o } := spares_of_labels rfl
    have hseek := hf.seeking hn
    obtain ⟨g', hok', hrep, -⟩ := settle_spec hN hR hseek
    obtain rfl := Except.ok.inj (hok'.symm.trans hok)
    exact htake.trans ((settle_spares hN hR hseek hok).trans (ih hrep))

/-! ## The repaired forest -/

/-- In a search forest every chain of parents is live. -/
theorem IsSearchForest.liveChain (hf : f.IsSearchForest R) (hc : Chain R.arcs f u vs)
    (hu : f.labels[u]? = some (some l)) : LiveChain R f l.side u vs := by
  induction hc generalizing l with
  | root hl hp =>
    rw [hu] at hl
    cases hl
    exact .root hu rfl hp
  | via hl hp ha _ ih =>
    rw [hu] at hl
    cases hl
    obtain ⟨-, -, v, m, c, ha', hm, hside, hc, hpos⟩ := hf.via _ _ _ hu hp
    obtain rfl := Except.ok.inj (ha.symm.trans ha')
    exact .via hu rfl hp ha hc hpos (hside ▸ ih hm)

/-- **What an adopt phase makes** of the forest `f`, while a node may be held.  A node that had no
orphan at or above it keeps its tree and its parent.  Every other node of a tree leaves it or is
found in it with a chain of tree edges up to a root, and nothing hangs on a node that left.  The
nodes that could grow back to one that left wait to grow, unless they are held. -/
structure Repaired (R : Residual) (held : Option Nat) (f f' : Forest) : Prop where
  size_eq : f'.labels.size = f.labels.size
  not_orphan : ∀ u, ¬ f'.IsOrphan u
  intact : ∀ (u : Nat) (l : Label), f.labels[u]? = some (some l) →
    (∀ w, f.AtOrAbove R.arcs u w → ¬ f.IsOrphan w) →
      ∃ l', f'.labels[u]? = some (some l') ∧ l'.side = l.side ∧ l'.parent = l.parent
  free : ∀ u : Nat, f.labels[u]? = some none → f'.labels[u]? = some none
  rooted : ∀ (u : Nat) (l' : Label), f'.labels[u]? = some (some l') →
    (∃ l : Label, f.labels[u]? = some (some l) ∧ l.side = l'.side) ∧
      ∃ vs, LiveChain R f' l'.side u vs
  hung : ∀ u v, f'.HangsOn R.arcs u v → ∃ m : Label, f'.labels[v]? = some (some m)
  awake : ∀ (w : Nat) (l : Label), f.labels[w]? = some (some l) → f'.labels[w]? = some none →
    ∃ as, R.arcs.around w = .ok as ∧ ∀ a ∈ as, ∀ (u : Nat) (m : Label) (c : Int),
      R.arcs.head a = .ok u → f'.labels[u]? = some (some m) → m.side = l.side →
        R.arcs.treeResidual l.side a = .ok c → 0 < c → u ∈ f'.active.waiting ∨ held = some u

/-- A node that has no orphan at or above it has a chain up to a root. -/
theorem exists_chain (hs : f.Sound R) (ho : f.Ordered R.arcs) (hu : f.label u = some l)
    (hno : ∀ w, f.AtOrAbove R.arcs u w → ¬ f.IsOrphan w) : ∃ vs, Chain R.arcs f u vs := by
  obtain ⟨p, hp⟩ := exists_climbs hs ho hu
  obtain ⟨k, hk, hroot | horphan⟩ := hp.root_label
  · exact ⟨p.nodes, hp.chain hk hroot⟩
  · exact absurd ⟨k, getElem?_labels hk, horphan⟩ (hno _ hp.atOrAbove)

theorem label_eq_none_of_getElem? (h : f.labels[u]? = some none) : f.label u = none := by
  simp [label, h]

theorem getElem?_labels_of_free (hu : u < f.labels.size) (h : f.label u = none) :
    f.labels[u]? = some none := by
  rw [← fetch_eq_ok_iff, fetch_labels hu, h]

/-- The nodes that could grow back to a free one wait to grow, or are held. -/
theorem Ready.waiting_or_held {w : Nat} (h : f.Ready R held) (hw : f.label w = none)
    (ha : R.arcs.Leads a w u) (hu : f.label u = some m)
    (hc : 0 < R.arcs.capacity (treeArc m.side a)) : u ∈ f.active.waiting ∨ held = some u := by
  by_contra hno
  obtain ⟨hwait, hheld⟩ := not_or.1 hno
  obtain ⟨k, hk, -⟩ := h.watched u hwait hheld m a.sister w hu ha.sister
    (by rwa [ArcRef.sister_sister])
  rw [hw] at hk
  cases hk

/-- **A phase repairs the forest.** -/
theorem Spares.repaired (hN : N.WellFormed) (hR : R.Within N) (hf : f.Repairing R held)
    (hg : g.Ready R held) (h : f.Spares R.arcs g) : Repaired R held f g := by
  have hforest := hg.isSearchForest hN hR
  have hsize : g.labels.size = f.labels.size := hg.sound.size_eq.trans hf.sound.size_eq.symm
  refine ⟨hsize, ?_, ?_, ?_, ?_, ?_, ?_⟩
  · rintro u ⟨l, hl, hp⟩
    exact hforest.not_orphan u l hl hp
  · intro u l hl hno
    have hu := label_eq_some_iff.2 hl
    obtain ⟨vs, hc⟩ := exists_chain hf.sound hf.ordered hu hno
    obtain ⟨m, hm, hside, hp⟩ := h.parent_eq u vs l hc hu
    exact ⟨m, getElem?_labels hm, hside, hp⟩
  · intro u hu
    refine getElem?_labels_of_free ?_ (h.sides.eq_none (label_eq_none_of_getElem? hu))
    rw [hsize]
    exact (Array.getElem?_eq_some_iff.1 hu).1
  · intro u m hm
    obtain ⟨l, hl, hside⟩ := h.sides u m (label_eq_some_iff.2 hm)
    obtain ⟨vs, hc, -⟩ := hforest.chain u m hm
    exact ⟨⟨l, getElem?_labels hl, hside⟩, vs, hforest.liveChain hc hm⟩
  · rintro u v ⟨l, a, hl, hp, ha⟩
    obtain ⟨-, -, v', m, -, ha', hm, -⟩ := hforest.via u l a hl hp
    obtain rfl := Except.ok.inj (ha.symm.trans ha')
    exact ⟨m, hm⟩
  · intro w l hl hw
    have hlt := hf.sound.lt_numNodes hR (label_eq_some_iff.2 hl)
    refine ⟨_, hR.arcs.around_eq w hlt, ?_⟩
    intro a ha u m c hu hm hside hres hpos
    obtain ⟨u', hlead, -⟩ := hR.arcs.mem_around.1 ha
    obtain rfl := Except.ok.inj (hu.symm.trans hlead.head_eq)
    obtain rfl := Except.ok.inj ((treeResidual_eq hlead l.side).symm.trans hres)
    exact hg.waiting_or_held (label_eq_none_of_getElem? hw) hlead (label_eq_some_iff.2 hm)
      (by rwa [hside])

end Forest

/-! ## The phase after an augmentation -/

variable {r : Register} {N : Network} {bits : Nat} {i : Nat} {mt : Meeting} {s₀ s : Search}
variable {a : Augmentation}

/-- **One adopt phase repairs the forest.**  In every solve of an admissible network, the phase
after an augmentation ends and takes no node from the list twice.  It changes nothing but the
forest, which it repairs, and the number of orphans settled. -/
theorem adoption_repairs (hr : r.IsMachine bits) (hN : N.Admissible r)
    (hmeet : AtMeeting r N i mt s₀) (haug : s₀.augment r mt = .ok (s, a)) :
    ∃ us f, Forest.Takes s.residual.arcs s.forest us f ∧ us.Nodup ∧ us.length ≤ N.numNodes ∧
      s.repair = .ok { s with forest := f, adoptions := s.adoptions + us.length } ∧
        Forest.Repaired s.residual (some i) s.forest f := by
  have hwf := hN.toWellFormed
  obtain ⟨hb, hrep⟩ := (AtRepair.start hmeet haug).repairing hr.keeps hwf (hN.fits hr)
  have hR := hb.toWithin
  obtain ⟨us, f, htakes, hnodup, hus, hrep', hnil, -⟩ := Forest.exists_takes hwf hR hrep
  have hle := (Forest.length_le_card_unmeasured hnodup hus).trans s.forest.card_unmeasured_le
  refine ⟨us, f, htakes, hnodup, ?_, ?_,
    (htakes.spares hwf hR hrep).repaired hwf hR hrep (hrep'.ready hnil)⟩
  · rwa [hrep.sound.size_labels hR] at hle
  · have hadopt : s.forest.adopt s.residual.arcs = .ok (f, us.length) := htakes.adoptAll_eq _ hle
    simp only [Search.repair, hadopt, bind, Except.bind, pure, Except.pure]

/-- The second augmentation of the detour takes the parent from node 2, which the phase hangs on
node 1. -/
theorem adoption_repairs_detour : ∃ i mt s₀ s a us f, AtMeeting (.signed 8) detour i mt s₀ ∧
    s₀.augment (.signed 8) mt = .ok (s, a) ∧ s.forest.orphans.order = [2] ∧
      f.labels[2]? = some (some ⟨.source, .via ⟨4, .reverse⟩, 3, 3⟩) ∧
        Forest.Takes s.residual.arcs s.forest us f ∧ us.Nodup ∧
          Forest.Repaired s.residual (some i) s.forest f := by
  have hrun : (headAfter (.signed 8) detour true 2).map (Option.map fun x => (do
      let o ← x.meeting?
      o.mapM fun q => do
        let p ← q.2.2.augment (.signed 8) q.2.1
        let s' ← p.1.repair
        return decide (p.1.forest.orphans.order = [2] ∧
          s'.forest.labels[2]? = some (some ⟨.source, .via ⟨4, .reverse⟩, 3, 3⟩)) :
      Except Fault (Option Bool))) = .ok (some (.ok (some true))) := by
    decide +kernel
  obtain ⟨x, hx, heval⟩ := exists_atHead_of_headAfter true 2 hrun
  obtain ⟨o, hmeet, heval⟩ := bind_eq_ok_iff.1 heval
  cases o with
  | none => cases heval
  | some q =>
    obtain ⟨i, mt, s₀⟩ := q
    obtain ⟨b, heval, hb⟩ := bind_eq_ok_iff.1 heval
    obtain rfl := Option.some.inj (Except.ok.inj hb)
    obtain ⟨⟨s, a⟩, haug, heval⟩ := bind_eq_ok_iff.1 heval
    obtain ⟨s', hrepair, heval⟩ := bind_eq_ok_iff.1 heval
    obtain ⟨horder, hlabel⟩ := of_decide_eq_true (Except.ok.inj heval)
    have hat := hx.atMeeting hmeet
    obtain ⟨us, f, htakes, hnodup, -, hok, hrepaired⟩ :=
      adoption_repairs ⟨by decide, Or.inl rfl⟩ detour_admissible hat haug
    obtain rfl := Except.ok.inj (hok.symm.trans hrepair)
    exact ⟨i, mt, s₀, s, a, us, f, hat, haug, horder, hlabel, htakes, hnodup, hrepaired⟩

end MinCut
