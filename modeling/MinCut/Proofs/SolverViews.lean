/-
# What a solver shows

A solver follows a search: where a step of the search on the forest succeeds, the step of the solver
on its variables succeeds as well, and what they show then is the forest that the search goes on
with.  A free node has no label, whatever is left over in its cell, and a cell that is written is
seen as the label of its node.  Here are the steps that choose a node, let it grow, and push along
a path; the loops are followed by induction on the steps that the search takes.

Key facts:
* `Shows.setCell` : a cell that is written is seen as a label;
* `Shows.nextActive` and `Shows.grow` : choosing a node and letting it grow;
* `Shows.narrow` : the smallest residual capacity on a way up, by induction on the way;
* `Shows.augment` : an augmentation.
-/
import MinCut.Paired
import MinCut.Proofs.InPlace
import MinCut.Solver.Run

namespace MinCut

/-! ## Loops -/

section Loops

variable {σ α : Type} {step : σ → Except Fault (σ ⊕ α)} {s s' : σ} {a : α} {n : Nat}

theorem repeatUntil_of_inr (h : step s = .ok (.inr a)) (n : Nat) :
    repeatUntil step n s = .ok a := by
  unfold repeatUntil
  rw [h]
  rfl

theorem repeatUntil_of_inl (h : step s = .ok (.inl s')) (h' : repeatUntil step n s' = .ok a) :
    repeatUntil step (n + 1) s = .ok a := by
  unfold repeatUntil
  rw [h]
  exact h'

end Loops

/-! ## Cells -/

namespace Cell

variable {c : Cell} {p : Parent}

theorem label_of_none (h : c.parent = none) : c.label = none := by
  rw [label, h]
  rfl

theorem label_of_some (h : c.parent = some p) :
    c.label = some ⟨c.side, p, c.stamp, c.depth⟩ := by
  rw [label, h]
  rfl

/-- A label says what is written in the cell. -/
theorem of_label {l : Label} (h : c.label = some l) :
    c.parent = some l.parent ∧ l.side = c.side ∧ l.stamp = c.stamp ∧ l.depth = c.depth := by
  cases hp : c.parent with
  | none =>
    rw [label_of_none hp] at h
    cases h
  | some p =>
    rw [label_of_some hp] at h
    obtain rfl := Option.some.inj h
    exact ⟨rfl, rfl, rfl, rfl⟩

/-- What a cell that hangs below another one is seen as. -/
theorem label_below {c d : Cell} {l : Label} (hl : c.label = some l) (hside : d.side = c.side)
    (a : ArcRef) : (d.below c a).label = some (l.child a) := by
  obtain ⟨-, hs, ht, hd⟩ := of_label hl
  rw [label_of_some (p := .via a) rfl]
  simp only [below, Label.child, hside, hs, ht, hd]

/-- A node is attached if its label says so. -/
theorem isAttached_of_some (h : c.parent = some p) :
    c.isAttached = (⟨c.side, p, c.stamp, c.depth⟩ : Label).isAttached := by
  rw [isAttached, h]
  cases p <;> rfl

theorem isAttached_of_none (h : c.parent = none) : c.isAttached = false := by
  rw [isAttached, h]

end Cell

namespace Solver

@[simp] theorem arcs_setCell (v : Solver) (u : Nat) (c : Cell) : (v.setCell u c).arcs = v.arcs :=
  rfl

namespace Shows

variable {v w : Solver} {R : Residual} {f g : Forest} {b : Bool} {c d : Cell} {r : Register}
variable {u i n k : Nat} {side : Segment} {x y : Int}

/-! ## Reads and writes -/

theorem arcs_eq (h : v.Shows R f b) : v.arcs = R.arcs := congrArg Residual.arcs h.residual_eq

theorem excess_eq (h : v.Shows R f b) : v.excess = R.excess :=
  congrArg Residual.excess h.residual_eq

theorem labels_eq (h : v.Shows R f b) : v.cells.map Cell.label = f.labels :=
  congrArg Forest.labels h.forest_eq

theorem active_eq (h : v.Shows R f b) : v.active = f.active := congrArg Forest.active h.forest_eq

theorem orphans_eq (h : v.Shows R f b) : v.orphans = f.orphans :=
  congrArg Forest.orphans h.forest_eq

theorem clock_eq (h : v.Shows R f b) : v.clock = f.clock := congrArg Forest.clock h.forest_eq

/-- The label of a node is seen in its cell. -/
theorem fetch (h : v.Shows R f b) (u : Nat) :
    Follows (fun o c => c.label = o ∧ v.cells[u]? = some c) (fetch f.labels u)
      (fetch v.cells u) := by
  intro o ho
  rw [fetch_eq_ok_iff, ← h.labels_eq, Array.getElem?_map, Option.map_eq_some_iff] at ho
  obtain ⟨c, hc, hlabel⟩ := ho
  exact ⟨c, fetch_eq_ok_iff.2 hc, hlabel, hc⟩

/-- The excess of a node is seen in its cell. -/
theorem fetch_excess (h : v.Shows R f b) (u : Nat) :
    Follows (fun x c => c.excess = x ∧ v.cells[u]? = some c) (MinCut.fetch R.excess u)
      (MinCut.fetch v.cells u) := by
  intro x hx
  rw [fetch_eq_ok_iff, ← h.excess_eq, excess, Array.getElem?_map, Option.map_eq_some_iff] at hx
  obtain ⟨c, hc, hexcess⟩ := hx
  exact ⟨c, fetch_eq_ok_iff.2 hc, hexcess, hc⟩

/-- Writing an entry that looks the same. -/
theorem map_setIfInBounds_eq {α β : Type} {xs : Array α} {p : α → β} {a a' : α}
    (hu : xs[u]? = some a) (hp : p a' = p a) : (xs.setIfInBounds u a').map p = xs.map p := by
  apply Array.ext_getElem?
  intro j
  simp only [Array.getElem?_map, Array.getElem?_setIfInBounds]
  by_cases hj : u = j
  · subst hj
    rw [if_pos rfl, if_pos (Array.getElem?_eq_some_iff.1 hu).1, hu]
    simp only [Option.map_some, hp]
  · rw [if_neg hj]

/-- **A cell that is written** with the same excess is seen as a label. -/
theorem setCell (h : v.Shows R f b) (hu : v.cells[u]? = some c) (hexcess : d.excess = c.excess) :
    (v.setCell u d).Shows R (f.setLabel u d.label) b := by
  obtain ⟨rfl, rfl, rfl⟩ := h
  refine ⟨?_, ?_, rfl⟩
  · have hset : (v.setCell u d).excess = v.excess := map_setIfInBounds_eq hu hexcess
    rw [residual, hset]
    rfl
  · simp only [forest, Solver.setCell, Forest.setLabel, Array.map_setIfInBounds]

/-- Writing another excess alone. -/
theorem setExcess (h : v.Shows R f b) (hu : v.cells[u]? = some c) (x : Int) :
    (v.setCell u { c with excess := x }).Shows
      { R with excess := R.excess.setIfInBounds u x } f b := by
  obtain ⟨rfl, rfl, rfl⟩ := h
  refine ⟨?_, ?_, rfl⟩
  · simp only [residual, excess, Solver.setCell, Array.map_setIfInBounds]
  · have hset : (v.setCell u { c with excess := x }).cells.map Cell.label =
        v.cells.map Cell.label := map_setIfInBounds_eq hu rfl
    simp only [forest, hset]
    rfl

theorem withActive (h : v.Shows R f b) (q : ActiveQueue) :
    Shows { v with active := q } R { f with active := q } b := by
  obtain ⟨rfl, rfl, rfl⟩ := h
  exact ⟨rfl, rfl, rfl⟩

theorem withOrphans (h : v.Shows R f b) (o : OrphanList) :
    Shows { v with orphans := o } R { f with orphans := o } b := by
  obtain ⟨rfl, rfl, rfl⟩ := h
  exact ⟨rfl, rfl, rfl⟩

theorem withArcs (h : v.Shows R f b) (t : ArcTable) :
    Shows { v with arcs := t } { R with arcs := t } f b := by
  obtain ⟨rfl, rfl, rfl⟩ := h
  exact ⟨rfl, rfl, rfl⟩

theorem activate (h : v.Shows R f b) (u : Nat) :
    Follows (fun g w => w.Shows R g b) (f.activate u) (v.activate u) := by
  unfold Forest.activate Solver.activate
  rw [h.active_eq]
  refine (Follows.refl _).bind_of_eq fun q => ?_
  exact .ok (h.withActive q)

theorem mark (h : v.Shows R f b) (u : Nat) (linked : Bool) :
    Follows (fun g w => w.Shows R g b) (f.mark u linked) (v.mark u linked) := by
  unfold Forest.mark Solver.mark
  rw [h.active_eq]
  refine (Follows.refl _).bind_of_eq fun q => ?_
  exact .ok (h.withActive q)

theorem isAttached (h : v.Shows R f b) (u : Nat) :
    Follows Eq (f.isAttached u) (v.isAttached u) := by
  unfold Forest.isAttached Solver.isAttached
  refine (h.fetch u).bind ?_
  rintro _ c ⟨rfl, -⟩
  cases hp : c.parent with
  | none =>
    rw [Cell.label_of_none hp, Cell.isAttached_of_none hp]
    exact .ok rfl
  | some p =>
    rw [Cell.label_of_some hp, Cell.isAttached_of_some hp]
    exact .ok rfl

/-! ## Choosing the node to grow -/

/-- The next active node is the same. -/
theorem nextActive (h : v.Shows R f b) (k : Nat) :
    Follows (fun p q => q.1 = p.1 ∧ q.2.Shows R p.2 b) (f.nextInPlace k)
      (repeatUntil takeStep k v) := by
  induction k using Nat.strongRecOn generalizing v f with
  | _ k ih =>
    unfold Forest.nextInPlace repeatUntil takeStep
    rw [h.active_eq, bind_assoc]
    refine (Follows.refl _).bind_of_eq fun o => ?_
    cases o with
    | none => exact .ok ⟨rfl, h⟩
    | some p =>
      have hrest := h.withActive p.2
      show Follows _ _ ((Solver.isAttached _ p.1 >>= _) >>= _)
      rw [bind_assoc]
      refine (hrest.isAttached p.1).bind_of_eq fun a => ?_
      cases a with
      | true => exact .ok ⟨rfl, hrest⟩
      | false =>
        cases k with
        | zero => exact .error _
        | succ k => exact ih k (Nat.lt_succ_self k) hrest

/-! ## Growing -/

/-- **A node is claimed**, met or taken over in both. -/
theorem growTo (h : v.Shows R f b) {l : Label} (hl : c.label = some l) (i : Nat) (a : ArcRef)
    (j : Nat) :
    Follows (fun p q => q.1.Shows R p.1 b ∧ q.2 = p.2) (f.growTo b i l a j)
      (v.growTo i c a j) := by
  obtain ⟨-, hside, hstamp, hdepth⟩ := Cell.of_label hl
  unfold Forest.growTo Solver.growTo
  refine (h.fetch j).bind ?_
  rintro _ d ⟨rfl, hj⟩
  cases hp : d.parent with
  | none =>
    rw [Cell.label_of_none hp]
    have hclaimed := h.setCell (d := { d.below c a.sister with side := c.side }) hj rfl
    have hlabel : ({ d.below c a.sister with side := c.side } : Cell).label =
        some (l.child a.sister) :=
      Cell.label_below (d := { d with side := c.side }) hl rfl a.sister
    rw [hlabel] at hclaimed
    refine (hclaimed.activate j).bind ?_
    intro g w hw
    exact .ok ⟨hw, rfl⟩
  | some p =>
    rw [Cell.label_of_some hp, h.reparent_eq]
    simp only [hside, hstamp, hdepth]
    refine .ite Iff.rfl (fun _ => .ok ⟨h, rfl⟩) fun hne => ?_
    refine .ite Iff.rfl (fun _ => ?_) fun _ => .ok ⟨h, rfl⟩
    have htaken := h.setCell (d := d.below c a.sister) hj rfl
    rw [Cell.label_below hl (Decidable.not_not.1 hne) a.sister] at htaken
    exact .ok ⟨htaken, rfl⟩

theorem growAlong (h : v.Shows R f b) {l : Label} (hl : c.label = some l) (i : Nat) (a : ArcRef) :
    Follows (fun p q => q.1.Shows R p.1 b ∧ q.2 = p.2) (Forest.growAlong R.arcs b i l f a)
      (Solver.growAlong i c v a) := by
  obtain ⟨-, hside, -, -⟩ := Cell.of_label hl
  unfold Forest.growAlong Solver.growAlong
  rw [h.arcs_eq, hside]
  refine (Follows.refl _).bind_of_eq fun x => ?_
  refine .ite Iff.rfl (fun _ => .ok ⟨h, rfl⟩) fun _ => ?_
  refine (Follows.refl _).bind_of_eq fun j => ?_
  exact h.growTo hl i a j

theorem growAll (h : v.Shows R f b) {l : Label} (hl : c.label = some l) (i : Nat)
    (as : List ArcRef) :
    Follows (fun p q => q.1.Shows R p.1 b ∧ q.2 = p.2) (Forest.growAll R.arcs b i l f as)
      (Solver.growAll i c v as) := by
  induction as generalizing v f with
  | nil => exact .ok ⟨h, rfl⟩
  | cons a as ih =>
    refine (h.growAlong hl i a).bind ?_
    rintro ⟨g, _⟩ ⟨w, o⟩ ⟨hw, rfl⟩
    cases o with
    | some m => exact .ok ⟨hw, rfl⟩
    | none => exact ih hw

/-- **A node grows its tree** in both, if its row lies within the references. -/
theorem grow (h : v.Shows R f b)
    (hrow : ∀ as, R.arcs.around i = .ok as → R.arcs.slice i = .ok as) :
    Follows (fun p q => q.1.Shows R p.1 b ∧ q.2 = p.2) (f.grow R.arcs b i) (v.grow i) := by
  unfold Forest.grow Solver.grow
  refine (h.fetch i).bind ?_
  rintro o c ⟨hl, -⟩
  cases o with
  | none => exact .error _
  | some l =>
    rw [h.arcs_eq]
    have hslice : Follows Eq (R.arcs.around i) (R.arcs.slice i) :=
      fun as has => ⟨as, hrow as has, rfl⟩
    refine hslice.bind_of_eq fun as => ?_
    refine (h.growAll hl i as).bind ?_
    rintro ⟨g, _⟩ ⟨w, o⟩ ⟨⟨rfl, rfl, rfl⟩, rfl⟩
    exact .ok ⟨⟨rfl, rfl, rfl⟩, rfl⟩

/-! ## Augmenting -/

theorem upArc? (h : v.Shows R f b) (u : Nat) : Follows Eq (f.upArc? u) (v.upArc? u) := by
  unfold Forest.upArc? Solver.upArc?
  refine (h.fetch u).bind ?_
  rintro _ c ⟨rfl, -⟩
  cases hp : c.parent with
  | none =>
    rw [Cell.label_of_none hp]
    exact .error _
  | some p =>
    rw [Cell.label_of_some hp]
    cases p with
    | root => exact .ok rfl
    | via a => exact .ok rfl
    | orphan => exact .error _

/-- **The smallest residual capacity** on the way up, by induction on the way. -/
theorem narrow (h : v.Shows R f b) {p : Ascent} (hp : f.ascend R.arcs k u = .ok p)
    (hy : R.arcs.smallest x (p.carriers side) = .ok y) (hk : k ≤ n) :
    repeatUntil (v.narrowStep side) n (x, u) = .ok (y, p.root) := by
  induction k using Nat.strongRecOn generalizing n u x p with
  | _ k ih =>
    unfold Forest.ascend at hp
    obtain ⟨o, ho, hp⟩ := bind_eq_ok_iff.1 hp
    cases o with
    | none => cases hp
    | some l =>
      have hu : f.label u = some l := Forest.label_eq_some_iff.2 (fetch_eq_ok_iff.1 ho)
      cases hl : l.parent with
      | orphan =>
        simp only [hl] at hp
        cases hp
      | root =>
        simp only [hl] at hp
        obtain rfl := Except.ok.inj hp
        obtain rfl := Except.ok.inj hy
        have hup : f.upArc? u = .ok none := Forest.upArc?_eq_none hu hl
        obtain ⟨_, hup', rfl⟩ := h.upArc? u _ hup
        apply repeatUntil_of_inr
        simp only [narrowStep, hup', bind, Except.bind, pure, Except.pure]
      | via a =>
        simp only [hl] at hp
        cases k with
        | zero => cases hp
        | succ k =>
          obtain ⟨w, hw, hp⟩ := bind_eq_ok_iff.1 hp
          obtain ⟨q, hq, hp⟩ := bind_eq_ok_iff.1 hp
          obtain rfl := Except.ok.inj hp
          obtain ⟨x', hx', hy⟩ := bind_eq_ok_iff.1 hy
          obtain ⟨capacity, hcapacity, hx'⟩ := bind_eq_ok_iff.1 hx'
          obtain rfl := Except.ok.inj hx'
          have hup : f.upArc? u = .ok (some a) := Forest.upArc?_eq_some hu hl
          obtain ⟨_, hup', rfl⟩ := h.upArc? u _ hup
          obtain ⟨n, rfl⟩ : ∃ n', n = n' + 1 := ⟨n - 1, by omega⟩
          have hrest := ih k (Nat.lt_succ_self k) hq hy (Nat.le_of_succ_le_succ hk)
          refine repeatUntil_of_inl ?_ hrest
          simp only [narrowStep, hup', h.arcs_eq, ArcTable.treeResidual, hcapacity, hw, bind,
            Except.bind, pure, Except.pure]

/-- **The bottleneck** is the same. -/
theorem bottleneck (h : v.Shows R f b) {mt : Meeting} {p : Path}
    (hp : f.path R.arcs mt = .ok p) (hn : f.labels.size ≤ n) :
    Follows Eq (R.bottleneck r p) (v.bottleneck r n mt) := by
  obtain ⟨source, hsource, hp⟩ := bind_eq_ok_iff.1 hp
  obtain ⟨sink, hsink, hp⟩ := bind_eq_ok_iff.1 hp
  obtain rfl := Except.ok.inj hp
  have hnarrow : ∀ (side : Segment) (u : Nat) (q : Ascent) (x : Int),
      f.ascend R.arcs f.labels.size u = .ok q →
        Follows (fun y z => z = (y, q.root)) (R.arcs.smallest x (q.carriers side))
          (repeatUntil (v.narrowStep side) n (x, u)) :=
    fun side u q x hq y hy => ⟨_, h.narrow hq hy hn, rfl⟩
  unfold Residual.bottleneck Solver.bottleneck
  rw [h.arcs_eq]
  refine (Follows.refl _).bind_of_eq fun x => ?_
  refine (hnarrow .source _ source x hsource).bind ?_
  rintro y _ rfl
  refine (h.fetch_excess source.root).bind ?_
  rintro _ c ⟨rfl, -⟩
  refine (hnarrow .sink _ sink _ hsink).bind ?_
  rintro z _ rfl
  refine (h.fetch_excess sink.root).bind ?_
  rintro _ d ⟨rfl, -⟩
  exact (Follows.refl _).bind_of_eq fun demand => .ok rfl

/-- A cell that loses its parent is seen as an orphan. -/
theorem setOrphan (h : v.Shows R f b) {l : Label} (hl : c.label = some l)
    (hu : v.cells[u]? = some c) :
    (v.setCell u { c with parent := some .orphan }).Shows R (f.setLabel u (some l.orphaned)) b := by
  obtain ⟨-, hside, hstamp, hdepth⟩ := Cell.of_label hl
  have hset := h.setCell (d := { c with parent := some .orphan }) hu rfl
  rw [Cell.label_of_some (c := { c with parent := some .orphan }) rfl] at hset
  simp only [← hside, ← hstamp, ← hdepth] at hset ⊢
  exact hset

/-- A node loses its parent. -/
theorem makeOrphan (h : v.Shows R f b) (u : Nat) :
    Follows (fun g w => w.Shows R g b) (f.orphan u) (v.makeOrphan u) := by
  unfold Forest.orphan Solver.makeOrphan
  refine (h.fetch u).bind ?_
  rintro o c ⟨hl, hu⟩
  cases o with
  | none => exact .error _
  | some l =>
    rw [h.orphans_eq]
    exact .ok ((h.setOrphan hl hu).withOrphans _)

/-- A push along an arc. -/
theorem pushArc {s : Search} (h : v.Shows s.residual s.forest s.reparent) (x : Int) (a : ArcRef) :
    Follows (fun s' t => Shows { v with arcs := t } s'.residual s'.forest s'.reparent)
      (s.pushArc r x a) (v.arcs.pushFlow r a x) := by
  unfold Search.pushArc
  rw [h.arcs_eq]
  intro s' hs'
  obtain ⟨t, ht, hs'⟩ := bind_eq_ok_iff.1 hs'
  obtain rfl := Except.ok.inj hs'
  exact ⟨t, ht, h.withArcs t⟩

/-- **A push through a root.** -/
theorem pushRoot {s : Search} (h : v.Shows s.residual s.forest s.reparent) (side : Segment)
    (x : Int) (u : Nat) :
    Follows (fun s' w => w.Shows s'.residual s'.forest s'.reparent) (s.pushRoot r side x u)
      (v.pushRoot r side x u) := by
  unfold Search.pushRoot Solver.pushRoot
  refine (h.fetch_excess u).bind ?_
  rintro _ c ⟨rfl, hu⟩
  refine (Follows.refl _).bind_of_eq fun rest => ?_
  refine .ite Iff.rfl (fun _ => .error _) fun _ => ?_
  have hset := h.setExcess hu rest
  refine .ite Iff.rfl (fun _ => ?_) fun _ => .ok hset
  intro s' hs'
  obtain ⟨f, hf, hs'⟩ := bind_eq_ok_iff.1 hs'
  obtain rfl := Except.ok.inj hs'
  exact hset.makeOrphan u f hf

/-- **A push along a tree edge**, after which the way goes on from the parent. -/
theorem pushStep {s : Search} (h : v.Shows s.residual s.forest s.reparent) {a : ArcRef}
    (hup : s.forest.upArc? u = .ok (some a)) (side : Segment) (x : Int) :
    Follows (fun p o => ∃ w, o = .inl (w, p.2) ∧ w.Shows p.1.residual p.1.forest p.1.reparent)
      (do
        let s' ← s.pushStep r side x (u, a)
        let j ← s'.residual.arcs.head a
        return (s', j))
      (Solver.pushStep r side x (v, u)) := by
  obtain ⟨_, hup', rfl⟩ := h.upArc? u _ hup
  unfold Search.pushStep Solver.pushStep
  simp only [hup', bind_assoc]
  refine (h.pushArc x (treeArc side a)).bind ?_
  intro s₁ t h₁
  rw [← h₁.arcs_eq]
  refine (Follows.refl _).bind_of_eq fun rest => ?_
  -- the way goes on alike, whether or not the node has lost its parent
  have hhead : ∀ (s₂ : Search) (w : Solver), w.Shows s₂.residual s₂.forest s₂.reparent →
      Follows (fun p o => ∃ w, o = Sum.inl (w, p.2) ∧
          w.Shows p.1.residual p.1.forest p.1.reparent)
        (s₂.residual.arcs.head a >>= fun j => pure (s₂, j))
        (w.arcs.head a >>= fun j => (pure (.inl (w, j)) :
          Except Fault ((Solver × Nat) ⊕ (Solver × Nat)))) := by
    intro s₂ w hw
    rw [hw.arcs_eq]
    refine (Follows.refl _).bind_of_eq fun j => ?_
    exact .ok ⟨w, rfl, hw⟩
  by_cases hrest : rest = 0
  · rw [if_pos hrest, if_pos hrest, bind_assoc]
    refine (h₁.makeOrphan u).bind ?_
    intro g w hw
    exact hhead { s₁ with forest := g } w hw
  · rw [if_neg hrest, if_neg hrest]
    exact hhead s₁ _ h₁

/-- **A push along a way**, by induction on the steps. -/
theorem pushUp {s : Search} (h : v.Shows s.residual s.forest s.reparent) (side : Segment)
    (x : Int) (hk : k ≤ n) (u : Nat) :
    Follows (fun s' w => w.Shows s'.residual s'.forest s'.reparent) (s.pushUp r side x k u)
      (v.pushUp r n side x u) := by
  induction k using Nat.strongRecOn generalizing n u v s with
  | _ k ih =>
    intro s' hs'
    unfold Search.pushUp at hs'
    obtain ⟨o, hup, hs'⟩ := bind_eq_ok_iff.1 hs'
    obtain ⟨_, hup', rfl⟩ := h.upArc? u _ hup
    cases o with
    | none =>
      obtain ⟨w, hroot, hw⟩ := h.pushRoot side x u s' hs'
      have hstep : Solver.pushStep r side x (v, u) = .ok (.inr (v, u)) := by
        simp only [Solver.pushStep, hup', bind, Except.bind, pure, Except.pure]
      exact ⟨w, bind_eq_ok_iff.2 ⟨(v, u), repeatUntil_of_inr hstep n, hroot⟩, hw⟩
    | some a =>
      cases k with
      | zero => cases hs'
      | succ k =>
        obtain ⟨s₁, h₁, hs'⟩ := bind_eq_ok_iff.1 hs'
        obtain ⟨j, hj, hs'⟩ := bind_eq_ok_iff.1 hs'
        have hpair : (do
            let s' ← s.pushStep r side x (u, a)
            let j ← s'.residual.arcs.head a
            return (s', j)) = .ok (s₁, j) := by
          simp only [h₁, hj, bind, Except.bind, pure, Except.pure]
        obtain ⟨_, hstep, w₁, rfl, hw₁⟩ := h.pushStep hup side x _ hpair
        obtain ⟨n, rfl⟩ : ∃ n', n = n' + 1 := ⟨n - 1, by omega⟩
        obtain ⟨w, hw, hshows⟩ :=
          ih k (Nat.lt_succ_self k) hw₁ (Nat.le_of_succ_le_succ hk) j s' hs'
        obtain ⟨q, hq, hroot⟩ := bind_eq_ok_iff.1 hw
        exact ⟨w, bind_eq_ok_iff.2 ⟨q, repeatUntil_of_inl hstep hq, hroot⟩, hshows⟩

/-- Pushes along a way keep the number of nodes. -/
theorem size_labels_of_pushUp {s s' : Search} (h : s.pushUp r side x k u = .ok s') :
    s'.forest.labels.size = s.forest.labels.size := by
  induction k using Nat.strongRecOn generalizing u s with
  | _ k ih =>
    unfold Search.pushUp at h
    obtain ⟨o, -, h⟩ := bind_eq_ok_iff.1 h
    cases o with
    | none => exact (Search.untouched_pushRoot h).size_eq
    | some a =>
      cases k with
      | zero => cases h
      | succ k =>
        obtain ⟨s₁, h₁, h⟩ := bind_eq_ok_iff.1 h
        obtain ⟨j, -, h⟩ := bind_eq_ok_iff.1 h
        rw [ih k (Nat.lt_succ_self k) h, (Search.untouched_pushStep h₁).size_eq]

/-- **An augmentation** in both. -/
theorem augment {s : Search} (h : v.Shows s.residual s.forest s.reparent) (mt : Meeting)
    (hn : s.forest.labels.size ≤ n) :
    Follows (fun p q => q.1.Shows p.1.residual p.1.forest p.1.reparent ∧ q.2 = p.2)
      (s.augmentInPlace r mt) (v.augment r n mt) := by
  intro q hq
  obtain ⟨p, hp, hq⟩ := bind_eq_ok_iff.1 hq
  obtain ⟨x, hx, hq⟩ := bind_eq_ok_iff.1 hq
  obtain ⟨_, hx', rfl⟩ := h.bottleneck hp hn x hx
  split at hq
  · rename_i hpos
    obtain ⟨s₁, h₁, hq⟩ := bind_eq_ok_iff.1 hq
    obtain ⟨s₂, h₂, hq⟩ := bind_eq_ok_iff.1 hq
    obtain ⟨s₃, h₃, hq⟩ := bind_eq_ok_iff.1 hq
    obtain ⟨flow, hflow, hq⟩ := bind_eq_ok_iff.1 hq
    obtain rfl := Except.ok.inj hq
    have hn₁ : s₁.forest.labels.size ≤ n := by
      rw [(Search.untouched_pushArc h₁).size_eq]
      exact hn
    have hn₂ : s₂.forest.labels.size ≤ n := by
      rw [size_labels_of_pushUp h₂]
      exact hn₁
    obtain ⟨t, ht, hw₁⟩ := h.pushArc x mt.middle s₁ h₁
    obtain ⟨w₂, hw, hw₂⟩ := hw₁.pushUp .source x hn₁ mt.sourceEnd s₂ h₂
    obtain ⟨w₃, hw', hw₃⟩ := hw₂.pushUp .sink x hn₂ mt.sinkEnd s₃ h₃
    have hflow' : r.store (w₃.flow + x) = .ok flow := by
      rw [show w₃.flow = s₃.residual.flow from congrArg Residual.flow hw₃.residual_eq]
      exact hflow
    refine ⟨({ w₃ with flow := flow, augmentations := w₃.augmentations + 1 },
      ⟨x, mt.sourceEnd, mt.sinkEnd⟩), ?_, ⟨?_, hw₃.forest_eq, hw₃.reparent_eq⟩, rfl⟩
    · unfold Solver.augment
      simp only [hx', if_pos hpos, ht, hw, hw', hflow', bind, Except.bind, pure, Except.pure]
    · exact congrArg (fun R => { R with flow := flow }) hw₃.residual_eq
  · cases hq

end Shows

end Solver

end MinCut
