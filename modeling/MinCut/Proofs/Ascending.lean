/-
# Pushing along a way up

An augmentation pushes along a whole way between a node and its terminal, tree edge by tree
edge and then through the root.  Each tree edge passes the gap on to the next one, so that a
gap is left at the lower end of the way only.

Key facts:
* `climb_spec` : a push along the tree edges of a way, by induction on the way;
* `ascent_spec` : a push along a way and through its root.
-/
import MinCut.Proofs.Pushing

namespace MinCut

/-! ## Amounts with a direction -/

/-- An amount that leaves the terminal of a side, counted from the source to the sink. -/
def Segment.directed (side : Segment) (x : Int) : Int :=
  match side with
  | source => x
  | sink => -x

namespace Search

variable {N : Network} {m x : Int} {r : Register} {s s' : Search} {a : ArcRef} {u v : Nat}
variable {l k : Label} {side : Segment} {held : Option Nat}

/-! ## What all pushes leave alone -/

/-- Pushes leave the queue, the time and the counters alone, and change a label only by
taking the parent from it. -/
structure Steady (s s' : Search) : Prop where
  reparent_eq : s'.reparent = s.reparent
  augmentations_eq : s'.augmentations = s.augmentations
  adoptions_eq : s'.adoptions = s.adoptions
  active_eq : s'.forest.active = s.forest.active
  clock_eq : s'.forest.clock = s.forest.clock
  size_eq : s'.forest.labels.size = s.forest.labels.size
  label_eq_or : ∀ w, s'.forest.label w = s.forest.label w ∨
    s'.forest.label w = (s.forest.label w).map Label.orphaned

theorem Steady.refl (s : Search) : s.Steady s :=
  ⟨rfl, rfl, rfl, rfl, rfl, rfl, fun _ => Or.inl rfl⟩

theorem Steady.trans {s'' : Search} (h : s.Steady s') (h' : s'.Steady s'') : s.Steady s'' where
  reparent_eq := h'.reparent_eq.trans h.reparent_eq
  augmentations_eq := h'.augmentations_eq.trans h.augmentations_eq
  adoptions_eq := h'.adoptions_eq.trans h.adoptions_eq
  active_eq := h'.active_eq.trans h.active_eq
  clock_eq := h'.clock_eq.trans h.clock_eq
  size_eq := h'.size_eq.trans h.size_eq
  label_eq_or w := by
    rcases h.label_eq_or w with h₁ | h₁ <;> rcases h'.label_eq_or w with h₂ | h₂
    · exact Or.inl (h₂.trans h₁)
    · exact Or.inr (by rw [h₂, h₁])
    · exact Or.inr (h₂.trans h₁)
    · apply Or.inr
      rw [h₂, h₁, Option.map_map]
      rfl

theorem steady_shift (s : Search) (a : ArcRef) (x : Int) : s.Steady (s.shift a x) :=
  ⟨rfl, rfl, rfl, rfl, rfl, rfl, fun _ => Or.inl rfl⟩

theorem steady_setExcess (s : Search) (u : Nat) (x : Int) : s.Steady (s.setExcess u x) :=
  ⟨rfl, rfl, rfl, rfl, rfl, rfl, fun _ => Or.inl rfl⟩

theorem steady_cutOff (h : s.forest.label u = some l) : s.Steady (s.cutOff u l) where
  reparent_eq := rfl
  augmentations_eq := rfl
  adoptions_eq := rfl
  active_eq := rfl
  clock_eq := rfl
  size_eq := Forest.size_cutOff
  label_eq_or w := by
    show (s.forest.cutOff u l).label w = _ ∨ (s.forest.cutOff u l).label w = _
    rw [Forest.label_cutOff h]
    split
    · rename_i huw
      subst huw
      exact Or.inr (by rw [h]; rfl)
    · exact Or.inl rfl

/-! ## A push along a way up -/

/-- What a push of `x` along the way `p` from `u` to its root does to the arcs, before it goes
through the root. -/
structure Climbed (N : Network) (side : Segment) (x : Int) (u : Nat) (p : Ascent)
    (s s' : Search) : Prop where
  steady : s.Steady s'
  excess_eq : s'.residual.excess = s.residual.excess
  flow_eq : s'.residual.flow = s.residual.flow
  leads : ∀ b y z, s.residual.arcs.Leads b y z → s'.residual.arcs.Leads b y z
  label_eq : ∀ w, w ∉ p.steps.map Prod.fst → s'.forest.label w = s.forest.label w
  capacity_le : ∀ b, b ∉ p.carriers side →
    s.residual.arcs.capacity b ≤ s'.residual.arcs.capacity b
  gap_eq : ∀ w, s'.residual.gap N w = s.residual.gap N w +
    ((if u = w then side.directed x else 0) - if p.root = w then side.directed x else 0)

/-- A push takes capacity from no arc but its own. -/
theorem le_capacity_shift {t : ArcTable} {b : ArcRef} (ha : t.Leads a u v) (hb : b ≠ a)
    (hx : 0 ≤ x) : t.capacity b ≤ (t.shift a x).capacity b := by
  rw [ArcTable.capacity_shift ha, if_neg hb]
  split
  · rename_i hsis
    subst hsis
    omega
  · exact Int.le_refl _

/-- What a push along one tree edge does. -/
theorem climbed_step (hs : s.Pushing N held) (hu : s.forest.label u = some l)
    (ha : s.residual.arcs.Leads a u v) (hx : 0 < x) :
    Climbed N l.side x u ⟨[(u, a)], v⟩ s
      (if s.residual.arcs.capacity (treeArc l.side a) = x then
        (s.shift (treeArc l.side a) x).cutOff u l
      else s.shift (treeArc l.side a) x) := by
  -- the arc that carries the flow leads down in the source tree and up in the sink tree
  obtain ⟨y, z, hy, hyz⟩ : ∃ y z, s.residual.arcs.Leads (treeArc l.side a) y z ∧
      ∀ w, (-((if y = w then x else 0) - if z = w then x else 0)) =
        ((if u = w then l.side.directed x else 0) - if v = w then l.side.directed x else 0) := by
    cases l.side with
    | source => exact ⟨v, u, ha.sister, fun w => by simp only [Segment.directed]; omega⟩
    | sink =>
      refine ⟨u, v, ha, ?_⟩
      intro w
      simp only [Segment.directed]
      split <;> split <;> omega
  have hcap : ∀ b, b ∉ (⟨[(u, a)], v⟩ : Ascent).carriers l.side → s.residual.arcs.capacity b ≤
      (s.residual.arcs.shift (treeArc l.side a) x).capacity b := by
    intro b hb
    exact le_capacity_shift hy (by simpa [Ascent.carriers] using hb) (by omega)
  have hgap : ∀ w, (s.shift (treeArc l.side a) x).residual.gap N w = s.residual.gap N w +
      ((if u = w then l.side.directed x else 0) - if v = w then l.side.directed x else 0) := by
    intro w
    rw [← hyz w]
    exact (Residual.gap_shift hs.within.arcs hy w).trans (by omega)
  have hleads : ∀ b y z, s.residual.arcs.Leads b y z →
      (s.residual.arcs.shift (treeArc l.side a) x).Leads b y z :=
    fun b y z hb => ArcTable.leads_shift.2 hb
  by_cases hfull : s.residual.arcs.capacity (treeArc l.side a) = x
  · rw [if_pos hfull]
    refine ⟨(steady_shift s _ x).trans (steady_cutOff hu), rfl, rfl, hleads, ?_, hcap, hgap⟩
    intro w hw
    have huw : u ≠ w := fun hc => hw (by simp [hc])
    exact (Forest.label_cutOff hu).trans (if_neg huw)
  · rw [if_neg hfull]
    exact ⟨steady_shift s _ x, rfl, rfl, hleads, fun _ _ => rfl, hcap, hgap⟩

/-- Pushing on from the parent of the first node of a way. -/
theorem Climbed.trans {s'' : Search} {p : Ascent} (h : Climbed N side x u ⟨[(u, a)], v⟩ s s')
    (h' : Climbed N side x v p s' s'') :
    Climbed N side x u ⟨(u, a) :: p.steps, p.root⟩ s s'' where
  steady := h.steady.trans h'.steady
  excess_eq := h'.excess_eq.trans h.excess_eq
  flow_eq := h'.flow_eq.trans h.flow_eq
  leads b y z hb := h'.leads b y z (h.leads b y z hb)
  label_eq w hw := by
    rw [List.map_cons, List.mem_cons, not_or] at hw
    rw [h'.label_eq w hw.2, h.label_eq w (by simpa using hw.1)]
  capacity_le b hb := by
    rw [show (⟨(u, a) :: p.steps, p.root⟩ : Ascent).carriers side =
      treeArc side a :: p.carriers side from rfl, List.mem_cons, not_or] at hb
    exact Int.le_trans (h.capacity_le b (by simpa [Ascent.carriers] using hb.1))
      (h'.capacity_le b hb.2)
  gap_eq w := by
    have h₁ := h.gap_eq w
    have h₂ := h'.gap_eq w
    simp only at h₁ ⊢
    omega

/-- **A push along a way up**, tree edge by tree edge.  The way is one of the forest before the
augmentation, of which the pushes so far have left the nodes on the way alone. -/
theorem climb_spec {t : ArcTable} {f : Forest} {p : Ascent} (hm : N.Fits m) (hx : 0 < x)
    (hclimb : Forest.Climbs t f u p) (hnodup : p.nodes.Nodup)
    (hside : ∀ w ∈ p.nodes, ∀ k, f.label w = some k → k.side = side)
    (hs : s.Pushing N held) (hleads : ∀ b y z, t.Leads b y z → s.residual.arcs.Leads b y z)
    (hlabel : ∀ w ∈ p.nodes, s.forest.label w = f.label w)
    (hle : ∀ b ∈ p.carriers side, x ≤ s.residual.arcs.capacity b) :
    ∃ s', (∀ r : Register, r.Keeps m → p.steps.foldlM (pushStep r side x) s = .ok s') ∧
      s'.Pushing N held ∧ Climbed N side x u p s s' := by
  induction hclimb generalizing s with
  | top hu _ =>
    exact ⟨s, fun r _ => rfl, hs, .refl s, rfl, rfl, fun _ _ _ hb => hb, fun _ _ => rfl,
      fun b _ => Int.le_refl _, fun w => by simp⟩
  | step hu hl ha hup ih =>
    rename_i y z l a p
    have hnodes : ∀ {w}, w ∈ p.nodes →
        w ∈ (⟨(y, a) :: p.steps, p.root⟩ : Ascent).nodes := List.mem_cons_of_mem y
    have hy : y ∈ (⟨(y, a) :: p.steps, p.root⟩ : Ascent).nodes := List.mem_cons_self
    obtain ⟨hnot, hnodup'⟩ := List.nodup_cons.1 hnodup
    have hsl : l.side = side := hside y hy l hu
    have hu' : s.forest.label y = some l := by rw [hlabel y hy, hu]
    have ha' := hleads a y z ha
    have hle' : x ≤ s.residual.arcs.capacity (treeArc l.side a) := by
      rw [hsl]
      exact hle _ List.mem_cons_self
    have hpush := fun (r : Register) (hr : r.Keeps m) =>
      pushStep_eq hr hm hs.within ha' hu' (Int.le_of_lt hx) hle'
    have hstep := hs.step hu' hl hx hle'
    have hclimbed := climbed_step hs hu' ha' hx
    generalize (if s.residual.arcs.capacity (treeArc l.side a) = x then
      (s.shift (treeArc l.side a) x).cutOff y l else s.shift (treeArc l.side a) x) = s₁
      at hpush hstep hclimbed
    rw [hsl] at hpush hclimbed
    have hlabel' : ∀ w ∈ p.nodes, s₁.forest.label w = f.label w := by
      intro w hw
      have hwy : w ≠ y := by
        rintro rfl
        exact hnot hw
      rw [hclimbed.label_eq w (by simpa using hwy), hlabel w (hnodes hw)]
    have hcap : ∀ b ∈ p.carriers side, x ≤ s₁.residual.arcs.capacity b := by
      intro b hb
      apply Int.le_trans (hle b (List.mem_cons_of_mem _ hb)) (hclimbed.capacity_le b _)
      -- a later tree edge is another one, for its lower end is another node
      obtain ⟨⟨w, c⟩, hwc, rfl⟩ := List.mem_map.1 hb
      obtain ⟨k, hk, hkc⟩ := hup.exists_step (w, c) hwc
      have hw : w ∈ p.nodes := List.mem_append_left _ (List.mem_map.2 ⟨(w, c), hwc, rfl⟩)
      have hk' : s.forest.label w = some k := by rw [hlabel w (hnodes hw), hk]
      intro hmem
      have heq : treeArc k.side c = treeArc l.side a := by
        rw [hsl, hside w (hnodes hw) k hk]
        simpa [Ascent.carriers] using hmem
      obtain rfl := hs.sound.eq_of_treeArc_eq hu' hl hk' hkc heq
      exact hnot hw
    obtain ⟨s₂, hok, hs₂, hclimbed₂⟩ := ih hnodup' (fun w hw => hside w (hnodes hw)) hstep
      (fun b y z hb => hclimbed.leads b y z (hleads b y z hb)) hlabel' hcap
    refine ⟨s₂, ?_, hs₂, hclimbed.trans hclimbed₂⟩
    intro r hr
    rw [List.foldlM_cons, hpush r hr]
    exact hok r hr

/-- What a push of `x` along the way `p` from `u` to its terminal does. -/
structure Ascended (N : Network) (side : Segment) (x : Int) (u : Nat) (p : Ascent)
    (s s' : Search) : Prop where
  steady : s.Steady s'
  excess_eq : s'.residual.excess =
    s.residual.excess.setIfInBounds p.root (rest side x (s.residual.excessAt p.root))
  flow_eq : s'.residual.flow = s.residual.flow
  leads : ∀ b y z, s.residual.arcs.Leads b y z → s'.residual.arcs.Leads b y z
  label_eq : ∀ w, w ∉ p.nodes → s'.forest.label w = s.forest.label w
  capacity_le : ∀ b, b ∉ p.carriers side →
    s.residual.arcs.capacity b ≤ s'.residual.arcs.capacity b
  gap_eq : ∀ w, s'.residual.gap N w = s.residual.gap N w + if u = w then side.directed x else 0

/-- What a push through the root at the end of a way does. -/
theorem Climbed.ascended {p : Ascent} (h : Climbed N side x u p s s')
    (hu : s'.forest.label p.root = some l) (hlt : p.root < s.residual.excess.size) :
    Ascended N side x u p s
      (if rest side x (s'.residual.excessAt p.root) = 0 then
        (s'.setExcess p.root 0).cutOff p.root l
      else s'.setExcess p.root (rest side x (s'.residual.excessAt p.root))) := by
  have hat : s'.residual.excessAt p.root = s.residual.excessAt p.root := by
    unfold Residual.excessAt
    rw [h.excess_eq]
  have hlt' : p.root < s'.residual.excess.size := by rw [h.excess_eq]; exact hlt
  rw [hat]
  have hexcess : (s'.residual.setExcess p.root (rest side x (s.residual.excessAt p.root))).excess =
      s.residual.excess.setIfInBounds p.root (rest side x (s.residual.excessAt p.root)) := by
    show s'.residual.excess.setIfInBounds p.root _ = _
    rw [h.excess_eq]
  have hgap : ∀ w,
      (s'.residual.setExcess p.root (rest side x (s.residual.excessAt p.root))).gap N w =
        s.residual.gap N w + if u = w then side.directed x else 0 := by
    intro w
    -- what the root passes on, it takes from its terminal
    have hdiff : s.residual.excessAt p.root - rest side x (s.residual.excessAt p.root) =
        side.directed x := by
      cases side <;> simp only [rest, Segment.directed] <;> omega
    rw [Residual.gap_setExcess hlt', h.gap_eq, hat, hdiff]
    omega
  have hlabel : ∀ w, w ∉ p.nodes → s'.forest.label w = s.forest.label w ∧ p.root ≠ w := by
    intro w hw
    rw [Ascent.nodes, List.mem_append, List.mem_singleton, not_or] at hw
    exact ⟨h.label_eq w hw.1, Ne.symm hw.2⟩
  by_cases hzero : rest side x (s.residual.excessAt p.root) = 0
  · rw [if_pos hzero]
    rw [hzero] at hexcess hgap
    refine ⟨h.steady.trans ((steady_setExcess s' _ 0).trans (steady_cutOff hu)), ?_, h.flow_eq,
      h.leads, ?_, h.capacity_le, hgap⟩
    · rw [hzero]
      exact hexcess
    · intro w hw
      obtain ⟨heq, hne⟩ := hlabel w hw
      exact ((Forest.label_cutOff hu).trans (if_neg hne)).trans heq
  · rw [if_neg hzero]
    exact ⟨h.steady.trans (steady_setExcess s' _ _), hexcess, h.flow_eq, h.leads,
      fun w hw => (hlabel w hw).1, h.capacity_le, hgap⟩

/-- **A push along a way up and through its root.** -/
theorem ascent_spec {t : ArcTable} {f : Forest} {p : Ascent} (hN : N.WellFormed) (hm : N.Fits m)
    (hx : 0 < x) (hclimb : Forest.Climbs t f u p) (hnodup : p.nodes.Nodup)
    (hside : ∀ w ∈ p.nodes, ∀ k, f.label w = some k → k.side = side)
    (hl : f.label p.root = some l) (hroot : l.parent = .root)
    (hs : s.Pushing N held) (hleads : ∀ b y z, t.Leads b y z → s.residual.arcs.Leads b y z)
    (hlabel : ∀ w ∈ p.nodes, s.forest.label w = f.label w)
    (hle : ∀ b ∈ p.carriers side, x ≤ s.residual.arcs.capacity b)
    (hexcess : x ≤ side.directed (s.residual.excessAt p.root)) :
    ∃ s', (∀ r : Register, r.Keeps m → s.pushAscent r side x p = .ok s') ∧
      s'.Pushing N held ∧ Ascended N side x u p s s' := by
  obtain ⟨s₁, hok, hs₁, hc⟩ := climb_spec hm hx hclimb hnodup hside hs hleads hlabel hle
  have hmem : p.root ∈ p.nodes := List.mem_append_right _ (List.mem_singleton_self _)
  -- the root is not below itself, so it has its label still
  have hnot : p.root ∉ p.steps.map Prod.fst := by
    have hd := (List.nodup_append.1 hnodup).2.2
    exact fun hc => hd _ hc _ (List.mem_singleton_self _) rfl
  have hl₁ : s₁.forest.label p.root = some l := by
    rw [hc.label_eq _ hnot, hlabel _ hmem, hl]
  obtain rfl := hside p.root hmem l hl
  have hlt : p.root < s₁.residual.excess.size := by
    rw [← hs₁.sound.size_eq]
    exact Forest.lt_of_label hl₁
  have hat : s₁.residual.excessAt p.root = s.residual.excessAt p.root := by
    unfold Residual.excessAt
    rw [hc.excess_eq]
  have hbound := hs₁.within.excess_le hN hm hlt
  rw [← hat] at hexcess
  refine ⟨_, ?_, hs₁.root hl₁ hroot (Int.le_of_lt hx) ?_ ?_,
    hc.ascended hl₁ (by rw [← hc.excess_eq]; exact hlt)⟩
  · intro r hr
    have hle : l.side = .source ∧ x ≤ s₁.residual.excessAt p.root ∧
          s₁.residual.excessAt p.root ≤ m ∨
        l.side = .sink ∧ x ≤ -s₁.residual.excessAt p.root ∧ -s₁.residual.excessAt p.root ≤ m := by
      cases hls : l.side with
      | source =>
        rw [hls] at hexcess
        exact Or.inl ⟨rfl, hexcess, hbound.2⟩
      | sink =>
        rw [hls] at hexcess
        exact Or.inr ⟨rfl, hexcess, by omega⟩
    have hpush := pushRoot_eq hr hl₁ hlt (Int.le_of_lt hx) hle
    unfold pushAscent
    rw [hok r hr]
    exact hpush
  · intro hsrc
    rw [hsrc] at hexcess
    exact hexcess
  · intro hsnk
    rw [hsnk] at hexcess
    exact hexcess

/-- The excess of a node is that of the root, less what went through it, or the one before. -/
theorem Ascended.excessAt_eq {p : Ascent} (h : Ascended N side x u p s s')
    (hlt : p.root < s.residual.excess.size) (w : Nat) : s'.residual.excessAt w =
      if p.root = w then rest side x (s.residual.excessAt p.root) else s.residual.excessAt w := by
  rw [← Residual.excessAt_setExcess hlt]
  unfold Residual.excessAt
  rw [h.excess_eq]
  rfl

/-- What goes through a root is taken from what its terminal can still send or receive. -/
theorem Ascended.totals {p : Ascent} (h : Ascended N side x u p s s') (hx : 0 < x)
    (hsize : s.residual.excess.size = N.numNodes) (hlt : p.root < s.residual.excess.size)
    (hle : x ≤ side.directed (s.residual.excessAt p.root)) :
    s'.residual.supply N = s.residual.supply N - (if side = .source then x else 0) ∧
      s'.residual.demand N = s.residual.demand N - (if side = .sink then x else 0) := by
  have hat : ∀ w, s'.residual.excessAt w = (s.residual.setExcess p.root
      (rest side x (s.residual.excessAt p.root))).excessAt w := by
    intro w
    rw [h.excessAt_eq hlt, Residual.excessAt_setExcess hlt]
  have hsupply := Residual.supply_setExcess (N := N) hlt hsize
    (rest side x (s.residual.excessAt p.root))
  have hdemand := Residual.demand_setExcess (N := N) hlt hsize
    (rest side x (s.residual.excessAt p.root))
  unfold Residual.supply Residual.demand at *
  simp only [hat]
  rw [hsupply, hdemand]
  cases side with
  | source =>
    simp only [Segment.directed] at hle
    simp only [rest, ↓reduceIte, reduceCtorEq]
    omega
  | sink =>
    simp only [Segment.directed] at hle
    simp only [rest, ↓reduceIte, reduceCtorEq]
    omega

end Search

end MinCut
