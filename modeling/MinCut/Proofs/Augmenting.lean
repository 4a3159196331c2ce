/-
# Augmenting a path

A meeting of the trees lies between two ways up, one to a root of the source tree and one to
a root of the sink tree.  The arc between the trees opens a gap at each of its ends, and the
pushes along the two ways close both; so the flow is conserved again, and it has grown by
what was pushed.

Key facts:
* `exists_limb` : the ways from a meeting to the terminals;
* `le_room_iff` : how much a path can take, exactly;
* `augment_spec` : an augmentation succeeds and leaves a balanced residual network.
-/
import MinCut.Proofs.Ascending

namespace MinCut

/-! ## The path through a meeting -/

namespace Forest

variable {R : Residual} {f : Forest} {mt : Meeting} {p : Ascent} {u v : Nat} {l : Label}
variable {a : ArcRef} {side : Segment}

/-- The arcs along a way up join nodes of its side and have residual capacity. -/
theorem Climbs.carrier (hs : f.Sound R) (h : Climbs R.arcs f u p) (hu : f.label u = some l)
    (ha : a ∈ p.carriers l.side) :
    ∃ y z, R.arcs.Leads a y z ∧ (∀ k, f.label y = some k → k.side = l.side) ∧
      (∃ k, f.label y = some k) ∧ (∀ k, f.label z = some k → k.side = l.side) ∧
      0 < R.arcs.capacity a := by
  obtain ⟨⟨w, c⟩, hwc, rfl⟩ := List.mem_map.1 ha
  obtain ⟨k, hk, hp⟩ := h.exists_step (w, c) hwc
  have hside : k.side = l.side := h.side_eq hs hu w
    (List.mem_append_left _ (List.mem_map.2 ⟨(w, c), hwc, rfl⟩)) k hk
  obtain ⟨v, m, hv, hm, hm', hc⟩ := hs.hung w k c hk hp
  rw [hside] at hm' hc
  have hw : ∀ k', f.label w = some k' → k'.side = l.side := fun k' hk' => by
    rw [hk] at hk'
    cases hk'
    exact hside
  have hv' : ∀ k', f.label v = some k' → k'.side = l.side := fun k' hk' => by
    rw [hm] at hk'
    cases hk'
    exact hm'
  cases hl : l.side with
  | source =>
    rw [hl] at hc hw hv'
    exact ⟨v, w, hv.sister, hv', ⟨m, hm⟩, hw, hc⟩
  | sink =>
    rw [hl] at hc hw hv'
    exact ⟨w, v, hv, hw, ⟨k, hk⟩, hv', hc⟩

/-- What is known of one of the two ways between a meeting and the terminals. -/
structure Limb (R : Residual) (f : Forest) (side : Segment) (u : Nat) (p : Ascent) : Prop where
  climbs : Climbs R.arcs f u p
  nodup : p.nodes.Nodup
  side_eq : ∀ w ∈ p.nodes, ∀ k, f.label w = some k → k.side = side
  exists_root : ∃ k, f.label p.root = some k ∧ k.parent = .root
  excess_pos : 0 < side.directed (R.excessAt p.root)
  carrier : ∀ a ∈ p.carriers side, ∃ y z, R.arcs.Leads a y z ∧
    (∀ k, f.label y = some k → k.side = side) ∧ (∃ k, f.label y = some k) ∧
    (∀ k, f.label z = some k → k.side = side) ∧ 0 < R.arcs.capacity a

/-- **A way up to a root** can be walked from every node of a tree. -/
theorem exists_limb (hs : f.Sound R) (ho : f.Ordered R.arcs) (hset : f.Settled)
    (hu : f.label u = some l) :
    ∃ p, EndsWithin f.labels.size (fun n => f.ascend R.arcs n u) p ∧ Limb R f l.side u p := by
  obtain ⟨p, hp⟩ := exists_climbs hs ho hu
  obtain ⟨k, hk, hroot | horphan⟩ := hp.root_label
  · have hside := hp.side_eq hs hu
    have hmem : p.root ∈ p.nodes := List.mem_append_right _ (List.mem_singleton_self _)
    have hpos : 0 < l.side.directed (R.excessAt p.root) := by
      rw [← hside _ hmem k hk]
      rcases hs.bound _ k hk hroot with ⟨h₁, h₂⟩ | ⟨h₁, h₂⟩ <;> rw [h₁] <;>
        simp only [Segment.directed] <;> omega
    exact ⟨p, (ascend_eq hp hk hroot).mono (Nat.le_of_lt (hp.length_lt ho)),
      ⟨hp, hp.nodup ho, hside, ⟨k, hk, hroot⟩, hpos, fun a ha => hp.carrier hs hu ha⟩⟩
  · exact absurd horphan (hset _ k hk)

/-- Ways of different sides have no node and no arc in common. -/
theorem Limb.disjoint {q : Ascent} (hp : Limb R f .source u p) (hq : Limb R f .sink v q) :
    (∀ w ∈ q.nodes, w ∉ p.nodes) ∧ ∀ a ∈ q.carriers .sink, a ∉ p.carriers .source := by
  constructor
  · intro w hw hw'
    obtain ⟨k, hk⟩ := hp.climbs.exists_label w hw'
    have h₁ := hp.side_eq w hw' k hk
    rw [hq.side_eq w hw k hk] at h₁
    cases h₁
  · intro a ha ha'
    obtain ⟨y, z, hy, hside, -⟩ := hp.carrier a ha'
    obtain ⟨y', z', hy', hside', ⟨k, hk⟩, -⟩ := hq.carrier a ha
    obtain ⟨rfl, -⟩ := hy.unique hy'
    have h₁ := hside k hk
    rw [hside' k hk] at h₁
    cases h₁

/-- The arc of a meeting lies on no way up. -/
theorem Limb.middle_not_mem (hp : Limb R f side u p) (hj : f.Joins R mt) :
    mt.middle ∉ p.carriers side := by
  intro ha
  obtain ⟨y, z, hy, hside, -, hside', -⟩ := hp.carrier _ ha
  obtain ⟨rfl, rfl⟩ := hy.unique hj.leads
  obtain ⟨l, hl, hs⟩ := hj.source_label
  obtain ⟨k, hk, ht⟩ := hj.sink_label
  have h₁ := hside l hl
  rw [← hside' k hk, ht, hs] at h₁
  cases h₁

end Forest

/-! ## How much a path can take -/

/-- The least of `x` and the residual capacities of a list of arcs. -/
def ArcTable.least (t : ArcTable) (x : Int) (as : List ArcRef) : Int :=
  as.foldl (fun x a => min x (t.capacity a)) x

/-- The least residual capacity is found, where all arcs exist. -/
theorem ArcTable.smallest_eq {t : ArcTable} {as : List ArcRef}
    (has : ∀ a ∈ as, ∃ u v, t.Leads a u v) (x : Int) : t.smallest x as = .ok (t.least x as) := by
  unfold smallest least
  induction as generalizing x with
  | nil => rfl
  | cons a as ih =>
    obtain ⟨u, v, ha⟩ := has a List.mem_cons_self
    rw [List.foldlM_cons, ha.residual_eq]
    exact ih (fun b hb => has b (List.mem_cons_of_mem a hb)) _

theorem ArcTable.le_least_iff (t : ArcTable) (as : List ArcRef) (x y : Int) :
    y ≤ t.least x as ↔ y ≤ x ∧ ∀ a ∈ as, y ≤ t.capacity a := by
  unfold least
  induction as generalizing x with
  | nil => simp
  | cons a as ih =>
    rw [List.foldl_cons, ih, List.forall_mem_cons, Int.le_min, and_assoc]

theorem Path.mem_arcs {p : Path} {a : ArcRef} : a ∈ p.arcs ↔
    a ∈ p.source.carriers .source ∨ a = p.middle ∨ a ∈ p.sink.carriers .sink := by
  simp [Path.arcs]

namespace Residual

variable {R : Residual} {p : Path} {m : Int}

/-- How much a path can take. -/
def room (R : Residual) (p : Path) : Int :=
  min (R.arcs.least (min (R.arcs.least (R.arcs.capacity p.middle) (p.source.carriers .source))
    (R.excessAt p.source.root)) (p.sink.carriers .sink)) (-R.excessAt p.sink.root)

/-- **How much a path can take** is the least of the residual capacities of its arcs and of
the excesses of its roots. -/
theorem le_room_iff (R : Residual) (p : Path) (y : Int) : y ≤ R.room p ↔
    (∀ a ∈ p.arcs, y ≤ R.arcs.capacity a) ∧ y ≤ R.excessAt p.source.root ∧
      y ≤ -R.excessAt p.sink.root := by
  rw [room, Int.le_min, ArcTable.le_least_iff, Int.le_min, ArcTable.le_least_iff]
  constructor
  · rintro ⟨⟨⟨⟨h₁, h₂⟩, h₃⟩, h₄⟩, h₅⟩
    refine ⟨?_, h₃, h₅⟩
    intro a ha
    rcases Path.mem_arcs.1 ha with ha | rfl | ha
    · exact h₂ a ha
    · exact h₁
    · exact h₄ a ha
  · rintro ⟨h₁, h₂, h₃⟩
    exact ⟨⟨⟨⟨h₁ _ (Path.mem_arcs.2 (Or.inr (Or.inl rfl))),
      fun a ha => h₁ a (Path.mem_arcs.2 (Or.inl ha))⟩, h₂⟩,
      fun a ha => h₁ a (Path.mem_arcs.2 (Or.inr (Or.inr ha)))⟩, h₃⟩

theorem bottleneck_eq {r : Register} (hr : r.Keeps m)
    (harcs : ∀ a ∈ p.arcs, ∃ u v, R.arcs.Leads a u v)
    (hsource : p.source.root < R.excess.size) (hsink : p.sink.root < R.excess.size)
    (hroom : -m ≤ R.excessAt p.sink.root ∧ R.excessAt p.sink.root ≤ m) :
    R.bottleneck r p = .ok (R.room p) := by
  have hfetch : ∀ u, u < R.excess.size → fetch R.excess u = .ok (R.excessAt u) := by
    intro u hu
    simp [fetch_of_lt hu, excessAt, hu]
  obtain ⟨u, v, hmiddle⟩ := harcs p.middle (Path.mem_arcs.2 (Or.inr (Or.inl rfl)))
  have h₁ := ArcTable.smallest_eq (t := R.arcs) fun a ha => harcs a (Path.mem_arcs.2 (Or.inl ha))
  have h₂ := ArcTable.smallest_eq (t := R.arcs) fun a ha =>
    harcs a (Path.mem_arcs.2 (Or.inr (Or.inr ha)))
  have hstore := hr (-R.excessAt p.sink.root) (by omega) (by omega)
  unfold bottleneck
  simp only [hmiddle.residual_eq, hfetch _ hsource, hfetch _ hsink, h₁, h₂, hstore, bind,
    Except.bind, pure, Except.pure]
  rfl

end Residual

namespace Search

variable {N : Network} {m x : Int} {r : Register} {s s' : Search} {held : Option Nat}
variable {mt : Meeting} {p : Path} {f : Forest}

/-! ## A push along the whole path -/

/-- What an augmentation that pushed `x` leaves behind. -/
structure Augmented (N : Network) (held : Option Nat) (x : Int) (s s' : Search) : Prop
    extends s'.Pushing N held where
  balances : s'.residual.Balances N
  flow_eq : s'.residual.flow = s.residual.flow + x
  augmentations_eq : s'.augmentations = s.augmentations + 1
  steady : s.Steady { s' with augmentations := s.augmentations }

/-- **All gaps close**: what a push along an arc opens at its two ends, the pushes along the ways
up take on to the terminals. -/
theorem balances_of_ascended {a : ArcRef} {u v : Nat} {p q : Ascent} {s₁ s₂ : Search}
    (hb : s.residual.Balances N) (hx : 0 < x) (ha : s.residual.arcs.Leads a u v)
    (h₁ : Ascended N .source x u p (s.shift a x) s₁) (h₂ : Ascended N .sink x v q s₁ s₂)
    (hw : s₂.residual.Within N) (hp : p.root < s.residual.excess.size)
    (hq : q.root < s.residual.excess.size) (hle : x ≤ s.residual.excessAt p.root)
    (hle' : x ≤ -s₁.residual.excessAt q.root) :
    ({ s₂.residual with flow := s.residual.flow + x } : Residual).Balances N := by
  have hsize₁ : s₁.residual.excess.size = s.residual.excess.size := by
    rw [h₁.excess_eq, Array.size_setIfInBounds]
    rfl
  obtain ⟨hsupply₁, hdemand₁⟩ := h₁.totals hx hb.size_eq hp hle
  obtain ⟨hsupply₂, hdemand₂⟩ := h₂.totals hx (hsize₁.trans hb.size_eq) (hsize₁ ▸ hq) hle'
  simp only [↓reduceIte, reduceCtorEq] at hsupply₁ hdemand₁ hsupply₂ hdemand₂
  refine ⟨⟨hw.arcs, hw.size_eq, hw.between⟩, ?_, ?_, ?_⟩
  · intro w hlt
    have hzero := hb.gap_eq w hlt
    have hgap : (s.shift a x).residual.gap N w = s.residual.gap N w -
        ((if u = w then x else 0) - if v = w then x else 0) :=
      Residual.gap_shift hb.arcs ha w
    have hgap₁ := h₁.gap_eq w
    have hgap₂ := h₂.gap_eq w
    simp only [Segment.directed] at hgap₁ hgap₂
    show s₂.residual.gap N w = 0
    rw [hgap₂, hgap₁, hgap, hzero]
    split <;> split <;> omega
  · show s.residual.flow + x + s₂.residual.supply N = _
    have htotal := hb.source_total
    have hsame : (s.shift a x).residual.supply N = s.residual.supply N := rfl
    omega
  · show s.residual.flow + x + s₂.residual.demand N = _
    have htotal := hb.sink_total
    have hsame : (s.shift a x).residual.demand N = s.residual.demand N := rfl
    omega

/-- **A push along the whole path** closes all gaps that it opens. -/
theorem pushPath_spec (hN : N.WellFormed) (hm : N.Fits m) (hs : s.Pushing N held)
    (hb : s.residual.Balances N) (hj : s.forest.Joins s.residual mt)
    (hmiddle : p.middle = mt.middle)
    (hsource : Forest.Limb s.residual s.forest .source mt.sourceEnd p.source)
    (hsink : Forest.Limb s.residual s.forest .sink mt.sinkEnd p.sink)
    (hx : 0 < x) (hle : x ≤ s.residual.room p) :
    ∃ s', (∀ r : Register, r.Keeps m → s.pushPath r x p = .ok s') ∧ s.Augmented N held x s' := by
  obtain ⟨harcs, hroot, hroot'⟩ := (s.residual.le_room_iff p x).1 hle
  obtain ⟨l, hl, hl'⟩ := hj.source_label
  obtain ⟨k, hk, hk'⟩ := hj.sink_label
  obtain ⟨ls, hls, hlsr⟩ := hsource.exists_root
  obtain ⟨lt, hlt, hltr⟩ := hsink.exists_root
  obtain ⟨hnodes, hcarriers⟩ := hsource.disjoint hsink
  have hcap : x ≤ s.residual.arcs.capacity mt.middle := by
    rw [← hmiddle]
    exact harcs _ (Path.mem_arcs.2 (Or.inr (Or.inl rfl)))
  have hsize := fun {w l} (h : s.forest.label w = some l) =>
    hs.sound.size_eq ▸ Forest.lt_of_label h
  -- the arc between the trees
  have hok₁ := fun (r : Register) (hr : r.Keeps m) =>
    pushArc_eq (x := x) hr hm hs.within hj.leads (Int.le_of_lt hx) hcap
  have hs₁ := hs.shift hj.leads hl hl' hk hk' (Int.le_of_lt hx) hcap
  have hup₁ : ∀ b, b ≠ mt.middle → s.residual.arcs.capacity b ≤
      (s.shift mt.middle x).residual.arcs.capacity b := fun b hb =>
    le_capacity_shift hj.leads hb (Int.le_of_lt hx)
  -- the way up to the source, which the arc does not lie on
  have hcap₁ : ∀ b ∈ p.source.carriers .source,
      x ≤ (s.shift mt.middle x).residual.arcs.capacity b := by
    intro b hb
    calc x ≤ s.residual.arcs.capacity b := harcs b (Path.mem_arcs.2 (Or.inl hb))
      _ ≤ _ := hup₁ b fun hc => hsource.middle_not_mem hj (hc ▸ hb)
  obtain ⟨s₂, hok₂, hs₂, h₂⟩ := ascent_spec (s := s.shift mt.middle x) hN hm hx hsource.climbs
    hsource.nodup hsource.side_eq hls hlsr hs₁ (fun b y z hb => ArcTable.leads_shift.2 hb)
    (fun _ _ => rfl) hcap₁ hroot
  -- the way up to the sink, which shares no node with the other way
  have hne : p.source.root ≠ p.sink.root := fun hc =>
    hnodes p.sink.root (List.mem_append_right _ (List.mem_singleton_self _))
      (hc ▸ List.mem_append_right _ (List.mem_singleton_self _))
  have hat : s₂.residual.excessAt p.sink.root = s.residual.excessAt p.sink.root :=
    (h₂.excessAt_eq (hsize hls) _).trans (if_neg hne)
  rw [← hat] at hroot'
  have hcap₂ : ∀ b ∈ p.sink.carriers .sink, x ≤ s₂.residual.arcs.capacity b := by
    intro b hb
    calc x ≤ s.residual.arcs.capacity b := harcs b (Path.mem_arcs.2 (Or.inr (Or.inr hb)))
      _ ≤ (s.shift mt.middle x).residual.arcs.capacity b :=
        hup₁ b fun hc => hsink.middle_not_mem hj (hc ▸ hb)
      _ ≤ _ := h₂.capacity_le b (hcarriers b hb)
  obtain ⟨s₃, hok₃, hs₃, h₃⟩ := ascent_spec (s := s₂) hN hm hx hsink.climbs
    hsink.nodup hsink.side_eq hlt hltr hs₂
    (fun b y z hb => h₂.leads b y z (ArcTable.leads_shift.2 hb))
    (fun w hw => h₂.label_eq w (hnodes w hw)) hcap₂ hroot'
  have hbal := balances_of_ascended hb hx hj.leads h₂ h₃ hs₃.within (hsize hls) (hsize hlt) hroot
    hroot'
  have hflow : s₃.residual.flow = s.residual.flow := h₃.flow_eq.trans h₂.flow_eq
  have hlow := hbal.flow_nonneg hN
  have hhigh := hbal.flow_le hm
  refine ⟨{ s₃ with residual.flow := s.residual.flow + x, augmentations := s₃.augmentations + 1 },
    ?_, ⟨hbal.toWithin, ⟨hs₃.sound.size_eq, hs₃.sound.root_of_excess, hs₃.sound.bound,
    hs₃.sound.hung⟩, hs₃.ordered, hs₃.listed, hs₃.watched⟩, hbal, rfl, ?_, ?_⟩
  · intro r hr
    have hstore := hr (s.residual.flow + x) (Int.le_trans (by omega) hlow) hhigh
    unfold pushPath
    simp only [hmiddle, hok₁ r hr, hok₂ r hr, hok₃ r hr, hflow, hstore, bind, Except.bind, pure,
      Except.pure]
  · show s₃.augmentations + 1 = _
    rw [(h₂.steady.trans h₃.steady).augmentations_eq]
    rfl
  · obtain ⟨h₁, -, h₃, h₄, h₅, h₆, h₇⟩ := (steady_shift s mt.middle x).trans
      (h₂.steady.trans h₃.steady)
    exact ⟨h₁, rfl, h₃, h₄, h₅, h₆, h₇⟩

/-- **An augmentation** succeeds, pushes a positive amount and leaves a balanced residual
network. -/
theorem augment_spec (hN : N.WellFormed) (hm : N.Fits m) (hs : s.Pushing N held)
    (hset : s.forest.Settled) (hb : s.residual.Balances N) (hj : s.forest.Joins s.residual mt) :
    ∃ s' x, 0 < x ∧ s.Augmented N held x s' ∧
      ∀ r : Register, r.Keeps m → s.augment r mt = .ok (s', ⟨x, mt.sourceEnd, mt.sinkEnd⟩) := by
  obtain ⟨l, hl, hl'⟩ := hj.source_label
  obtain ⟨k, hk, hk'⟩ := hj.sink_label
  obtain ⟨p, hp, hsource⟩ := Forest.exists_limb hs.sound hs.ordered hset hl
  obtain ⟨q, hq, hsink⟩ := Forest.exists_limb hs.sound hs.ordered hset hk
  rw [hl'] at hsource
  rw [hk'] at hsink
  have hpath : s.forest.path s.residual.arcs mt = .ok ⟨p, mt.middle, q⟩ := by
    simp only [Forest.path, hp.eq, hq.eq, bind, Except.bind, pure, Except.pure]
  have hroot : ∀ {a : Ascent} {side u}, Forest.Limb s.residual s.forest side u a →
      a.root < s.residual.excess.size := by
    intro a side u ha
    obtain ⟨l, hl, -⟩ := ha.exists_root
    rw [← hs.sound.size_eq]
    exact Forest.lt_of_label hl
  have harcs : ∀ a ∈ (⟨p, mt.middle, q⟩ : Path).arcs, ∃ u v, s.residual.arcs.Leads a u v := by
    intro a ha
    rcases Path.mem_arcs.1 ha with ha | rfl | ha
    · obtain ⟨y, z, hy, -⟩ := hsource.carrier a ha
      exact ⟨y, z, hy⟩
    · exact ⟨_, _, hj.leads⟩
    · obtain ⟨y, z, hy, -⟩ := hsink.carrier a ha
      exact ⟨y, z, hy⟩
  -- nothing on the path is used up
  have hpos : 0 < s.residual.room ⟨p, mt.middle, q⟩ := by
    refine (s.residual.le_room_iff _ 1).2 ⟨?_, hsource.excess_pos, hsink.excess_pos⟩
    intro a ha
    rcases Path.mem_arcs.1 ha with ha | rfl | ha
    · obtain ⟨-, -, -, -, -, -, hc⟩ := hsource.carrier a ha
      exact hc
    · exact hj.capacity_pos
    · obtain ⟨-, -, -, -, -, -, hc⟩ := hsink.carrier a ha
      exact hc
  obtain ⟨s', hok, haug⟩ := pushPath_spec (p := ⟨p, mt.middle, q⟩) hN hm hs hb hj rfl hsource
    hsink hpos (Int.le_refl _)
  refine ⟨s', _, hpos, haug, ?_⟩
  intro r hr
  have hbottleneck := Residual.bottleneck_eq (p := ⟨p, mt.middle, q⟩) hr harcs (hroot hsource)
    (hroot hsink) (hs.within.excess_le hN hm (hroot hsink))
  unfold augment
  simp only [hpath, hbottleneck, hok r hr, if_pos hpos, bind, Except.bind, pure, Except.pure]

end Search

end MinCut
