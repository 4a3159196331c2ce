/-
# What is left over in a solver

Two solvers with the same arcs, the same excesses and the same setting may differ in all else when
a solve of them begins: in the parents and the queue, which are cleared then, and in the trees and
the depths that are still written in the cells of free nodes, which are not.  Their solves go on
alike.  A free node that was in no tree since the beginning has time zero in its cell, no solver
waits to settle it, and whatever a step reads from its cell, its parent is asked as well.  As soon
as it is claimed for a tree, its cell is written anew.

Key facts:
* `Paired.repeatUntil` : two loops go on alike if their steps do, by induction on the steps;
* `Alike` : how far two solvers agree at any moment of their solves;
* `Alike.setCell` : a cell that is written is the same in both from then on;
* `Alike.choose`, `Alike.grow` and `Alike.augment` : the steps, one by one.
-/
import MinCut.Paired
import MinCut.Solver.Run

namespace MinCut

/-- Two loops go on alike if their steps do, whatever their bounds. -/
theorem Paired.repeatUntil {σ τ α β : Type} {R : σ → τ → Prop} {S : α → β → Prop}
    {step : σ → Except Fault (σ ⊕ α)} {step' : τ → Except Fault (τ ⊕ β)}
    (hstep : ∀ s t, R s t → Paired (Sum.LiftRel R S) (step s) (step' t)) (n m : Nat)
    {s : σ} {t : τ} (h : R s t) :
    Paired S (MinCut.repeatUntil step n s) (MinCut.repeatUntil step' m t) := by
  induction n generalizing m s t with
  | zero =>
    unfold MinCut.repeatUntil
    refine (hstep s t h).bind ?_
    rintro _ _ (_ | hdone)
    · exact .error_left _
    · exact .ok hdone
  | succ n ih =>
    unfold MinCut.repeatUntil
    refine (hstep s t h).bind ?_
    rintro _ _ (hnext | hdone)
    · cases m with
      | zero => exact .error_right _
      | succ m => exact ih m hnext
    · exact .ok hdone

namespace Solver

/-! ## Cells that agree -/

/-- The cell of the node `u` is that of a free node, with the tree and the depth that it had in
`v₀`. -/
def IsLeftOver (v₀ v : Solver) (u : Nat) : Prop :=
  ∃ c₀ c, v₀.cells[u]? = some c₀ ∧ v.cells[u]? = some c ∧ c.parent = none ∧ c.stamp = 0 ∧
    c.side = c₀.side ∧ c.depth = c₀.depth

/-- Two cells are the same, or both are those of a free node with time zero. -/
inductive SameCell : Cell → Cell → Prop where
  | same (c : Cell) : SameCell c c
  | free {c d : Cell} : c.parent = none → d.parent = none → c.stamp = 0 → d.stamp = 0 →
      d.excess = c.excess → SameCell c d

/-- The value of a flow after a list of augmentations, each of which adds what it pushes. -/
def advance (r : Register) (flow : Int) (as : List Augmentation) : Except Fault Int :=
  as.foldlM (fun flow a => r.store (flow + a.bottleneck)) flow

theorem advance_append {r : Register} {flow flow' : Int} {as : List Augmentation}
    (h : advance r flow as = .ok flow') (a : Augmentation) :
    advance r flow (as ++ [a]) = r.store (flow' + a.bottleneck) := by
  unfold advance at h ⊢
  rw [List.foldlM_append, h]
  show (r.store (flow' + a.bottleneck) >>= pure) = _
  rw [bind_pure]

/-- What a solver is at. -/
inductive Phase where
  /-- A tree grows, or the roots are planted. -/
  | growing
  /-- The time has advanced, and a path is augmented or orphans wait to be settled. -/
  | repairing
  /-- The orphan `u` is settled. -/
  | settling (u : Nat)

/-- **The solvers `v` and `w` agree** but for what is left over in the cells of free nodes, where
`v₀` and `w₀` are the solvers at the beginning and `as` the paths augmented since then. -/
structure Alike (r : Register) (v₀ w₀ : Solver) (as : List Augmentation) (phase : Phase)
    (v w : Solver) : Prop where
  arcs_eq : w.arcs = v.arcs
  excess_eq : w.excess = v.excess
  active_eq : w.active = v.active
  orphans_eq : w.orphans = v.orphans
  clock_eq : w.clock = v.clock
  reparent_eq : w.reparent = v.reparent
  cells : ∀ u : Nat, w.cells[u]? = v.cells[u]? ∨ IsLeftOver v₀ v u ∧ IsLeftOver w₀ w u
  /-- No node that waits to be settled has anything left over. -/
  orphan_eq : ∀ u ∈ v.orphans.order, w.cells[u]? = v.cells[u]?
  settling_eq : ∀ u, phase = .settling u → w.cells[u]? = v.cells[u]?
  clock_pos : phase ≠ .growing → 0 < v.clock
  flow_eq : advance r v₀.flow as = .ok v.flow
  flow_eq' : advance r w₀.flow as = .ok w.flow
  augmentations_eq : v.augmentations = v₀.augmentations + as.length
  augmentations_eq' : w.augmentations = w₀.augmentations + as.length
  adoptions_eq : ∃ k, v.adoptions = v₀.adoptions + k ∧ w.adoptions = w₀.adoptions + k

variable {r : Register} {v₀ w₀ v w : Solver} {as : List Augmentation} {phase : Phase} {n m : Nat}

/-- Solvers with the same excesses have as many nodes. -/
theorem size_cells_eq (h : w.excess = v.excess) : w.cells.size = v.cells.size := by
  have hsize := congrArg Array.size h
  simpa [excess] using hsize

/-- The excess in a cell is the same, whatever is left over in it. -/
theorem fetch_excess (h : w.excess = v.excess) (u : Nat) :
    Paired (fun c d : Cell => d.excess = c.excess) (fetch v.cells u) (fetch w.cells u) := by
  intro c d hc hd
  rw [fetch_eq_ok_iff] at hc hd
  have hu := congrArg (fun xs : Array Int => xs[u]?) h
  simp only [excess, Array.getElem?_map, hc, hd, Option.map_some] at hu
  exact Option.some.inj hu

/-- A node that is known to have nothing left over is read the same. -/
theorem fetch_eq {u : Nat} (heq : w.cells[u]? = v.cells[u]?) :
    Paired Eq (fetch v.cells u) (fetch w.cells u) := by
  intro c d hc hd
  rw [fetch_eq_ok_iff] at hc hd
  exact Option.some.inj (hc.symm.trans (heq.symm.trans hd))

theorem getElem?_setCell (v : Solver) (u w : Nat) (c : Cell) :
    (v.setCell u c).cells[w]? =
      if u = w then (if u < v.cells.size then some c else none) else v.cells[w]? :=
  Array.getElem?_setIfInBounds ..

namespace Alike

/-! ## Reads and writes -/

theorem fetch (h : Alike r v₀ w₀ as phase v w) (u : Nat) :
    Paired SameCell (fetch v.cells u) (fetch w.cells u) := by
  intro c d hc hd
  have hexcess := fetch_excess h.excess_eq u c d hc hd
  rw [fetch_eq_ok_iff] at hc hd
  rcases h.cells u with heq | ⟨⟨-, c', -, hc', hcp, hcs, -, -⟩, ⟨-, d', -, hd', hdp, hds, -, -⟩⟩
  · obtain rfl : c = d := Option.some.inj (hc.symm.trans (heq.symm.trans hd))
    exact .same c
  · obtain rfl : c = c' := Option.some.inj (hc.symm.trans hc')
    obtain rfl : d = d' := Option.some.inj (hd.symm.trans hd')
    exact .free hcp hdp hcs hds hexcess

/-- A node that hangs on something has nothing left over. -/
theorem isAttached (h : Alike r v₀ w₀ as phase v w) (u : Nat) :
    Paired (fun b b' => b' = b ∧ (b = true → w.cells[u]? = v.cells[u]?)) (v.isAttached u)
      (w.isAttached u) := by
  unfold Solver.isAttached
  intro b b' hb hb'
  obtain ⟨c, hc, hb⟩ := bind_eq_ok_iff.1 hb
  obtain ⟨d, hd, hb'⟩ := bind_eq_ok_iff.1 hb'
  obtain rfl := Except.ok.inj hb
  obtain rfl := Except.ok.inj hb'
  cases h.fetch u c d hc hd with
  | same =>
    rw [fetch_eq_ok_iff] at hc hd
    exact ⟨rfl, fun _ => hd.trans hc.symm⟩
  | free hcp hdp =>
    have hc' : c.isAttached = false := by rw [Cell.isAttached, hcp]
    have hd' : d.isAttached = false := by rw [Cell.isAttached, hdp]
    rw [hc', hd']
    exact ⟨rfl, fun hf => nomatch hf⟩

/-- Neither has a node on an augmenting path. -/
theorem upArc? (h : Alike r v₀ w₀ as phase v w) (u : Nat) :
    Paired (fun o o' => o' = o ∧ w.cells[u]? = v.cells[u]?) (v.upArc? u) (w.upArc? u) := by
  unfold Solver.upArc?
  intro o o' ho ho'
  obtain ⟨c, hc, ho⟩ := bind_eq_ok_iff.1 ho
  obtain ⟨d, hd, ho'⟩ := bind_eq_ok_iff.1 ho'
  cases h.fetch u c d hc hd with
  | same =>
    rw [fetch_eq_ok_iff] at hc hd
    exact ⟨Except.ok.inj (ho'.symm.trans ho), hd.trans hc.symm⟩
  | free hcp =>
    rw [hcp] at ho
    cases ho

theorem withActive (h : Alike r v₀ w₀ as phase v w) (q : ActiveQueue) :
    Alike r v₀ w₀ as phase { v with active := q } { w with active := q } :=
  { h with active_eq := rfl }

theorem withArcs (h : Alike r v₀ w₀ as phase v w) (t : ArcTable) :
    Alike r v₀ w₀ as phase { v with arcs := t } { w with arcs := t } :=
  { h with arcs_eq := rfl }

/-- No node waits that did not, but one that has nothing left over. -/
theorem withOrphans (h : Alike r v₀ w₀ as phase v w) {o : OrphanList}
    (ho : ∀ u ∈ o.order, u ∈ v.orphans.order ∨ w.cells[u]? = v.cells[u]?) :
    Alike r v₀ w₀ as phase { v with orphans := o } { w with orphans := o } :=
  { h with
    orphans_eq := rfl
    orphan_eq := fun u hu => (ho u hu).elim (h.orphan_eq u) id }

/-- A node whose cell was written has nothing left over. -/
theorem setCell_eq (h : Alike r v₀ w₀ as phase v w) (u : Nat) (c : Cell) :
    (w.setCell u c).cells[u]? = (v.setCell u c).cells[u]? := by
  rw [getElem?_setCell, getElem?_setCell, if_pos rfl, if_pos rfl,
    size_cells_eq h.excess_eq]

/-- **Writing the same cell** to a node. -/
theorem setCell (h : Alike r v₀ w₀ as phase v w) (u : Nat) (c : Cell) :
    Alike r v₀ w₀ as phase (v.setCell u c) (w.setCell u c) := by
  have hother : ∀ x : Nat, x ≠ u → w.cells[x]? = v.cells[x]? →
      (w.setCell u c).cells[x]? = (v.setCell u c).cells[x]? := by
    intro x hx heq
    rw [getElem?_setCell, getElem?_setCell, if_neg (Ne.symm hx), if_neg (Ne.symm hx), heq]
  have hequal : ∀ x : Nat, w.cells[x]? = v.cells[x]? →
      (w.setCell u c).cells[x]? = (v.setCell u c).cells[x]? := by
    intro x heq
    by_cases hx : x = u
    · subst hx
      exact h.setCell_eq x c
    · exact hother x hx heq
  have hleft : ∀ {y₀ y : Solver} {x : Nat}, x ≠ u → IsLeftOver y₀ y x →
      IsLeftOver y₀ (y.setCell u c) x := by
    rintro y₀ y x hx ⟨c₀, d, h₀, hd, hrest⟩
    exact ⟨c₀, d, h₀, by rw [getElem?_setCell, if_neg (Ne.symm hx), hd], hrest⟩
  refine { h with
    excess_eq := ?_
    cells := ?_
    orphan_eq := fun x hx => hequal x (h.orphan_eq x hx)
    settling_eq := fun x hx => hequal x (h.settling_eq x hx) }
  · have hset : ∀ y : Solver, (y.setCell u c).excess = y.excess.setIfInBounds u c.excess :=
      fun y => Array.map_setIfInBounds ..
    rw [hset, hset, h.excess_eq]
  · intro x
    by_cases hx : x = u
    · subst hx
      exact .inl (h.setCell_eq x c)
    · rcases h.cells x with heq | ⟨hv, hw⟩
      · exact .inl (hequal x heq)
      · exact .inr ⟨hleft hx hv, hleft hx hw⟩

theorem activate (h : Alike r v₀ w₀ as phase v w) (u : Nat) :
    Paired (Alike r v₀ w₀ as phase) (v.activate u) (w.activate u) := by
  unfold Solver.activate
  rw [h.active_eq]
  refine (Paired.refl _).bind ?_
  rintro q _ rfl
  exact .ok (h.withActive q)

theorem mark (h : Alike r v₀ w₀ as phase v w) (u : Nat) (linked : Bool) :
    Paired (Alike r v₀ w₀ as phase) (v.mark u linked) (w.mark u linked) := by
  unfold Solver.mark
  rw [h.active_eq]
  refine (Paired.refl _).bind ?_
  rintro q _ rfl
  exact .ok (h.withActive q)

/-! ## Choosing the node to grow -/

/-- The same node is chosen, and it has nothing left over. -/
def Chosen (r : Register) (v₀ w₀ : Solver) (as : List Augmentation) (phase : Phase)
    (p q : Option Nat × Solver) : Prop :=
  q.1 = p.1 ∧ Alike r v₀ w₀ as phase p.2 q.2 ∧
    ∀ u, p.1 = some u → q.2.cells[u]? = p.2.cells[u]?

theorem takeStep (h : Alike r v₀ w₀ as phase v w) :
    Paired (Sum.LiftRel (Alike r v₀ w₀ as phase) (Chosen r v₀ w₀ as phase)) v.takeStep
      w.takeStep := by
  unfold Solver.takeStep
  rw [h.active_eq]
  refine (Paired.refl _).bind ?_
  rintro o _ rfl
  cases o with
  | none => exact .ok (.inr ⟨rfl, h, fun u hu => nomatch hu⟩)
  | some p =>
    have hrest := h.withActive p.2
    refine (hrest.isAttached p.1).bind ?_
    rintro _ b ⟨rfl, heq⟩
    cases b with
    | true =>
      refine .ok (.inr ⟨rfl, hrest, ?_⟩)
      intro u hu
      obtain rfl := Option.some.inj hu
      exact heq rfl
    | false => exact .ok (.inl hrest)

theorem nextActive (h : Alike r v₀ w₀ as phase v w) :
    Paired (Chosen r v₀ w₀ as phase) v.nextActive w.nextActive :=
  Paired.repeatUntil (fun _ _ h => takeStep h) _ _ h

theorem choose (h : Alike r v₀ w₀ as phase v w) (held : Option Nat) :
    Paired (Chosen r v₀ w₀ as phase) (v.choose held) (w.choose held) := by
  cases held with
  | none => exact h.nextActive
  | some i =>
    refine (h.mark i false).bind ?_
    intro v₁ w₁ h₁
    refine (h₁.isAttached i).bind ?_
    rintro _ b ⟨rfl, heq⟩
    cases b with
    | true =>
      refine .ok ⟨rfl, h₁, ?_⟩
      intro u hu
      obtain rfl := Option.some.inj hu
      exact heq rfl
    | false => exact h₁.nextActive

/-! ## Growing -/

/-- A free node is claimed with a cell that has nothing left over; in any other cell nothing is. -/
theorem growTo (h : Alike r v₀ w₀ as phase v w) (i : Nat) (c : Cell) (a : ArcRef) (j : Nat) :
    Paired (fun p q => Alike r v₀ w₀ as phase p.1 q.1 ∧ q.2 = p.2) (v.growTo i c a j)
      (w.growTo i c a j) := by
  unfold Solver.growTo
  refine (h.fetch j).bind ?_
  rintro d e (_ | ⟨hd, he, -, -, hexcess⟩)
  · rw [h.reparent_eq]
    cases d.parent with
    | none =>
      refine ((h.setCell j _).activate j).bind ?_
      intro v₁ w₁ h₁
      exact .ok ⟨h₁, rfl⟩
    | some p =>
      refine .ite Iff.rfl (fun _ => .ok ⟨h, rfl⟩) fun _ => ?_
      exact .ite Iff.rfl (fun _ => .ok ⟨h.setCell j _, rfl⟩) fun _ => .ok ⟨h, rfl⟩
  · have hcell : ({ e.below c a.sister with side := c.side } : Cell) =
        { d.below c a.sister with side := c.side } := by
      simp only [Cell.below, hexcess]
    rw [hd, he, hcell]
    refine ((h.setCell j _).activate j).bind ?_
    intro v₁ w₁ h₁
    exact .ok ⟨h₁, rfl⟩

theorem growAlong (h : Alike r v₀ w₀ as phase v w) (i : Nat) (c : Cell) (a : ArcRef) :
    Paired (fun p q => Alike r v₀ w₀ as phase p.1 q.1 ∧ q.2 = p.2)
      (Solver.growAlong i c v a) (Solver.growAlong i c w a) := by
  unfold Solver.growAlong
  rw [h.arcs_eq]
  refine (Paired.refl _).bind ?_
  rintro x _ rfl
  refine .ite Iff.rfl (fun _ => .ok ⟨h, rfl⟩) fun _ => ?_
  refine (Paired.refl _).bind ?_
  rintro j _ rfl
  exact h.growTo i c a j

theorem growAll (h : Alike r v₀ w₀ as phase v w) (i : Nat) (c : Cell) (bs : List ArcRef) :
    Paired (fun p q => Alike r v₀ w₀ as phase p.1 q.1 ∧ q.2 = p.2)
      (Solver.growAll i c v bs) (Solver.growAll i c w bs) := by
  induction bs generalizing v w with
  | nil => exact .ok ⟨h, rfl⟩
  | cons a bs ih =>
    refine (h.growAlong i c a).bind ?_
    rintro ⟨v₁, _⟩ ⟨w₁, o⟩ ⟨h₁, rfl⟩
    cases o with
    | some m => exact .ok ⟨h₁, rfl⟩
    | none => exact ih h₁

/-- **A node grows its tree** alike if nothing is left over in its own cell. -/
theorem grow (h : Alike r v₀ w₀ as phase v w) {i : Nat} (hi : w.cells[i]? = v.cells[i]?) :
    Paired (fun p q => Alike r v₀ w₀ as phase p.1 q.1 ∧ 0 < p.1.clock ∧ q.2 = p.2) (v.grow i)
      (w.grow i) := by
  unfold Solver.grow
  rw [h.arcs_eq]
  refine (fetch_eq hi).bind ?_
  rintro c _ rfl
  refine (Paired.refl _).bind ?_
  rintro bs _ rfl
  refine (h.growAll i c bs).bind ?_
  rintro ⟨v₁, _⟩ ⟨w₁, o⟩ ⟨h₁, rfl⟩
  refine .ok ⟨?_, Nat.succ_pos _, rfl⟩
  exact { h₁ with
    clock_eq := congrArg (· + 1) h₁.clock_eq
    clock_pos := fun _ => Nat.succ_pos _ }

/-! ## Augmenting -/

theorem narrowStep (h : Alike r v₀ w₀ as phase v w) (side : Segment) (x : Int × Nat) :
    Paired (Sum.LiftRel Eq Eq) (v.narrowStep side x) (w.narrowStep side x) := by
  obtain ⟨x, u⟩ := x
  unfold Solver.narrowStep
  rw [h.arcs_eq]
  refine (h.upArc? u).bind ?_
  rintro _ o ⟨rfl, -⟩
  cases o with
  | none => exact .ok (.inr rfl)
  | some a =>
    refine (Paired.refl _).bind ?_
    rintro capacity _ rfl
    refine (Paired.refl _).bind ?_
    rintro u _ rfl
    exact .ok (.inl rfl)

theorem bottleneck (h : Alike r v₀ w₀ as phase v w) (mt : Meeting) :
    Paired Eq (v.bottleneck r n mt) (w.bottleneck r m mt) := by
  have hnarrow : ∀ side x, Paired Eq (MinCut.repeatUntil (v.narrowStep side) n x)
      (MinCut.repeatUntil (w.narrowStep side) m x) := by
    intro side x
    refine Paired.repeatUntil ?_ n m rfl
    rintro y _ rfl
    exact h.narrowStep side y
  -- the excess of a node is the same even if its cell is not
  have hexcess := fetch_excess h.excess_eq
  unfold Solver.bottleneck
  rw [h.arcs_eq]
  refine (Paired.refl _).bind ?_
  rintro x _ rfl
  refine (hnarrow .source (x, mt.sourceEnd)).bind ?_
  rintro p _ rfl
  refine (hexcess p.2).bind ?_
  intro c d hcd
  rw [hcd]
  refine (hnarrow .sink (min p.1 c.excess, mt.sinkEnd)).bind ?_
  rintro q _ rfl
  refine (hexcess q.2).bind ?_
  intro c' d' hcd'
  rw [hcd']
  refine (Paired.refl _).bind ?_
  rintro demand _ rfl
  exact .ok rfl

/-- A node that loses its parent must have nothing left over, for it waits to be settled then. -/
theorem makeOrphan (h : Alike r v₀ w₀ as phase v w) {u : Nat}
    (hu : w.cells[u]? = v.cells[u]?) :
    Paired (Alike r v₀ w₀ as phase) (v.makeOrphan u) (w.makeOrphan u) := by
  unfold Solver.makeOrphan
  refine (fetch_eq hu).bind ?_
  rintro c _ rfl
  have hset := h.setCell u { c with parent := some .orphan }
  rw [h.orphans_eq]
  refine .ok (hset.withOrphans ?_)
  intro x hx
  rw [OrphanList.order_pushSaturated, List.mem_append, List.mem_cons] at hx
  rcases hx with hx | rfl | hx
  · exact .inl (List.mem_append_left _ hx)
  · exact .inr (h.setCell_eq x _)
  · exact .inl (List.mem_append_right _ hx)

/-- The pushes along a way have come to the same node, which has nothing left over if the way ends
there. -/
theorem pushStep (h : Alike r v₀ w₀ as phase v w) (side : Segment) (x : Int) (u : Nat) :
    Paired (Sum.LiftRel (fun p q => Alike r v₀ w₀ as phase p.1 q.1 ∧ q.2 = p.2)
      fun p q => Alike r v₀ w₀ as phase p.1 q.1 ∧ q.2 = p.2 ∧ q.1.cells[p.2]? = p.1.cells[p.2]?)
      (Solver.pushStep r side x (v, u)) (Solver.pushStep r side x (w, u)) := by
  unfold Solver.pushStep
  refine (h.upArc? u).bind ?_
  rintro _ o ⟨rfl, hu⟩
  cases o with
  | none => exact .ok (.inr ⟨h, rfl, hu⟩)
  | some a =>
    rw [h.arcs_eq]
    refine (Paired.refl _).bind ?_
    rintro t _ rfl
    have ht := h.withArcs t
    refine (Paired.refl _).bind ?_
    rintro rest _ rfl
    have hgo : ∀ v₁ w₁, Alike r v₀ w₀ as phase v₁ w₁ →
        Paired (Sum.LiftRel (fun p q : Solver × Nat => Alike r v₀ w₀ as phase p.1 q.1 ∧ q.2 = p.2)
          fun p q : Solver × Nat => Alike r v₀ w₀ as phase p.1 q.1 ∧ q.2 = p.2 ∧
            q.1.cells[p.2]? = p.1.cells[p.2]?)
          (do
            let u ← v₁.arcs.head a
            return .inl (v₁, u) : Except Fault ((Solver × Nat) ⊕ (Solver × Nat)))
          (do
            let u ← w₁.arcs.head a
            return .inl (w₁, u)) := by
      intro v₁ w₁ h₁
      rw [h₁.arcs_eq]
      refine (Paired.refl _).bind ?_
      rintro u _ rfl
      exact .ok (.inl ⟨h₁, rfl⟩)
    refine .ite Iff.rfl (fun _ => ?_) fun _ => ?_
    · refine (ht.makeOrphan hu).bind ?_
      intro v₁ w₁ h₁
      exact hgo v₁ w₁ h₁
    · exact hgo _ _ ht

theorem pushRoot (h : Alike r v₀ w₀ as phase v w) (side : Segment) (x : Int) {u : Nat}
    (hu : w.cells[u]? = v.cells[u]?) :
    Paired (Alike r v₀ w₀ as phase) (v.pushRoot r side x u) (w.pushRoot r side x u) := by
  unfold Solver.pushRoot
  refine (fetch_eq hu).bind ?_
  rintro c _ rfl
  refine (Paired.refl _).bind ?_
  rintro rest _ rfl
  refine .ite Iff.rfl (fun _ => .error_left _) fun _ => ?_
  have hset := h.setCell u { c with excess := rest }
  exact .ite Iff.rfl (fun _ => hset.makeOrphan (h.setCell_eq u _)) fun _ => .ok hset

/-- The way up is followed alike, and nothing is left over in the cell of the root. -/
theorem pushSteps (h : Alike r v₀ w₀ as phase v w) (side : Segment) (x : Int) (u : Nat) :
    Paired (fun p q => Alike r v₀ w₀ as phase p.1 q.1 ∧ q.2 = p.2 ∧
        q.1.cells[p.2]? = p.1.cells[p.2]?)
      (MinCut.repeatUntil (Solver.pushStep r side x) n (v, u))
      (MinCut.repeatUntil (Solver.pushStep r side x) m (w, u)) := by
  refine Paired.repeatUntil (R := fun p q => Alike r v₀ w₀ as phase p.1 q.1 ∧ q.2 = p.2) ?_ n m
    ⟨h, rfl⟩
  rintro ⟨v, _⟩ ⟨w, u⟩ ⟨h, rfl⟩
  exact h.pushStep side x u

theorem pushUp (h : Alike r v₀ w₀ as phase v w) (side : Segment) (x : Int) (u : Nat) :
    Paired (Alike r v₀ w₀ as phase) (v.pushUp r n side x u) (w.pushUp r m side x u) := by
  unfold Solver.pushUp
  refine (h.pushSteps side x u).bind ?_
  rintro ⟨v₁, _⟩ ⟨w₁, u⟩ ⟨h₁, rfl, hu⟩
  exact h₁.pushRoot side x hu

/-- **An augmentation** pushes the same amount along the same path. -/
theorem augment (h : Alike r v₀ w₀ as phase v w) (mt : Meeting) :
    Paired (fun p q => Alike r v₀ w₀ (as ++ [p.2]) phase p.1 q.1 ∧ q.2 = p.2)
      (v.augment r n mt) (w.augment r m mt) := by
  unfold Solver.augment
  refine (h.bottleneck mt).bind ?_
  rintro x _ rfl
  refine .ite Iff.rfl (fun _ => ?_) fun _ => .error_left _
  rw [h.arcs_eq]
  refine (Paired.refl _).bind ?_
  rintro t _ rfl
  refine ((h.withArcs t).pushUp .source x mt.sourceEnd).bind ?_
  intro v₁ w₁ h₁
  refine (h₁.pushUp .sink x mt.sinkEnd).bind ?_
  intro v₂ w₂ h₂
  have hcount : ∀ {k k₀ : Nat}, k = k₀ + as.length →
      k + 1 = k₀ + (as ++ [(⟨x, mt.sourceEnd, mt.sinkEnd⟩ : Augmentation)]).length := by
    intro k k₀ hk
    rw [hk, List.length_append, Nat.add_assoc]
    rfl
  intro p q hp hq
  obtain ⟨flow, hflow, hp⟩ := bind_eq_ok_iff.1 hp
  obtain ⟨flow', hflow', hq⟩ := bind_eq_ok_iff.1 hq
  obtain rfl := Except.ok.inj hp
  obtain rfl := Except.ok.inj hq
  exact ⟨{ h₂ with
    flow_eq := (advance_append h₂.flow_eq _).trans hflow
    flow_eq' := (advance_append h₂.flow_eq' _).trans hflow'
    augmentations_eq := hcount h₂.augmentations_eq
    augmentations_eq' := hcount h₂.augmentations_eq' }, rfl⟩

end Alike

end Solver

end MinCut
