/-
# Orphans of a solver

A solver settles an orphan as a search does in place.  The walks up from the nodes around it write
to the cells of their trees, but never another tree: the orphan stays on the side that it was on
while its neighbours are measured.  When it leaves its tree, that side is left over in its cell.

Key facts:
* `Shows.measure` and `Shows.markBelow` : the two walks up, by induction on their steps;
* `Shows.considerAll` : the search for a parent, arc by arc;
* `Shows.settle` : an orphan is settled.
-/
import MinCut.Proofs.SolverViews

namespace MinCut

namespace Solver

/-- The tree that is written in every cell, left over or not. -/
def sides (v : Solver) : Array Segment := v.cells.map Cell.side

namespace Shows

variable {v w : Solver} {R : Residual} {f g : Forest} {b : Bool} {c d : Cell}
variable {u i n k e : Nat} {side : Segment} {best : Option Forest.Candidate}

theorem size_cells (h : v.Shows R f b) : v.cells.size = R.excess.size := by
  rw [← h.excess_eq, excess, Array.size_map]

theorem size_labels (h : v.Shows R f b) : f.labels.size = R.excess.size := by
  rw [← h.labels_eq, Array.size_map, h.size_cells]

/-- Writing a cell with the same tree. -/
theorem sides_setCell (hu : v.cells[u]? = some c) (hside : d.side = c.side) :
    (v.setCell u d).sides = v.sides := map_setIfInBounds_eq hu hside

/-- The tree in a cell after steps that write no tree. -/
theorem side_eq (h : w.sides = v.sides) (hc : v.cells[u]? = some c) (hd : w.cells[u]? = some d) :
    d.side = c.side := by
  have hu := congrArg (fun ss : Array Segment => ss[u]?) h
  simp only [sides, Array.getElem?_map, hc, hd, Option.map_some] at hu
  exact Option.some.inj hu

/-! ## Measuring -/

/-- A cell that is measured is seen as a measured label. -/
theorem setMeasured (h : v.Shows R f b) {l : Label} (hl : c.label = some l)
    (hu : v.cells[u]? = some c) (e : Nat) :
    (v.setCell u { c with stamp := v.clock, depth := e }).Shows R
      (f.setLabel u (some (l.measured f.clock e))) b := by
  obtain ⟨hp, hside, -, -⟩ := Cell.of_label hl
  have hset := h.setCell (d := { c with stamp := v.clock, depth := e }) hu rfl
  rw [Cell.label_of_some (c := { c with stamp := v.clock, depth := e }) hp] at hset
  simp only [← hside, h.clock_eq] at hset ⊢
  exact hset

/-- **The walk that measures**, by induction on its steps. -/
theorem measure (h : v.Shows R f b) (hk : k ≤ n) (e u : Nat) :
    Follows (fun p q => q.1 = p.1 ∧ q.2.Shows R p.2 b ∧ q.2.sides = v.sides)
      (f.measure R.arcs k e u) (repeatUntil v.measureStep n (u, e)) := by
  induction k using Nat.strongRecOn generalizing n e u with
  | _ k ih =>
    intro p hok
    unfold Forest.measure at hok
    obtain ⟨o, ho, hok⟩ := bind_eq_ok_iff.1 hok
    obtain ⟨c, hc, hl, hu⟩ := h.fetch u o ho
    cases o with
    | none => cases hok
    | some l =>
      obtain ⟨hp, -, hstamp, hdepth⟩ := Cell.of_label hl
      simp only [hstamp, hdepth] at hok
      by_cases hs : c.stamp = f.clock
      · rw [if_pos hs] at hok
        obtain rfl := Except.ok.inj hok
        have hstep : v.measureStep (u, e) = .ok (.inr (some (e + c.depth), v)) := by
          simp only [measureStep, hc, h.clock_eq, if_pos hs, bind, Except.bind, pure, Except.pure]
        exact ⟨_, repeatUntil_of_inr hstep n, rfl, h, rfl⟩
      · rw [if_neg hs] at hok
        cases hparent : l.parent with
        | root =>
          simp only [hparent] at hp hok
          obtain rfl := Except.ok.inj hok
          have hstep : v.measureStep (u, e) = .ok (.inr (some (e + 1),
              v.setCell u { c with stamp := v.clock, depth := 1 })) := by
            simp only [measureStep, hc, h.clock_eq, if_neg hs, hp, bind, Except.bind, pure,
              Except.pure]
          exact ⟨_, repeatUntil_of_inr hstep n, rfl, h.setMeasured hl hu 1, sides_setCell hu rfl⟩
        | orphan =>
          simp only [hparent] at hp hok
          obtain rfl := Except.ok.inj hok
          have hstep : v.measureStep (u, e) = .ok (.inr (none, v)) := by
            simp only [measureStep, hc, h.clock_eq, if_neg hs, hp, bind, Except.bind, pure,
              Except.pure]
          exact ⟨_, repeatUntil_of_inr hstep n, rfl, h, rfl⟩
        | via a =>
          simp only [hparent] at hp hok
          cases k with
          | zero => cases hok
          | succ k =>
            obtain ⟨j, hj, hok⟩ := bind_eq_ok_iff.1 hok
            obtain ⟨n, rfl⟩ : ∃ n', n = n' + 1 := ⟨n - 1, by omega⟩
            obtain ⟨q, hq, hshows⟩ :=
              ih k (Nat.lt_succ_self k) (Nat.le_of_succ_le_succ hk) (e + 1) j p hok
            have hstep : v.measureStep (u, e) = .ok (.inl (j, e + 1)) := by
              simp only [measureStep, hc, h.clock_eq, if_neg hs, hp, h.arcs_eq, hj, bind,
                Except.bind, pure, Except.pure]
            exact ⟨q, repeatUntil_of_inl hstep hq, hshows⟩

/-- **The walk that writes the depths down**, by induction on the depth. -/
theorem markBelow (h : v.Shows R f b) (he : e ≤ n) (u : Nat) :
    Follows (fun g w => w.Shows R g b ∧ w.sides = v.sides) (f.markBelow R.arcs e u)
      (repeatUntil markStep n (v, u, e)) := by
  induction e using Nat.strongRecOn generalizing v f n u with
  | _ e ih =>
    intro g hok
    unfold Forest.markBelow at hok
    obtain ⟨o, ho, hok⟩ := bind_eq_ok_iff.1 hok
    obtain ⟨c, hc, hl, hu⟩ := h.fetch u o ho
    cases o with
    | none => cases hok
    | some l =>
      obtain ⟨hp, -, hstamp, -⟩ := Cell.of_label hl
      simp only [hstamp] at hok
      by_cases hs : c.stamp = f.clock
      · rw [if_pos hs] at hok
        obtain rfl := Except.ok.inj hok
        have hstep : markStep (v, u, e) = .ok (.inr v) := by
          simp only [markStep, hc, h.clock_eq, if_pos hs, bind, Except.bind, pure, Except.pure]
        exact ⟨v, repeatUntil_of_inr hstep n, h, rfl⟩
      · rw [if_neg hs] at hok
        cases e with
        | zero => cases hok
        | succ e =>
          cases hparent : l.parent with
          | root =>
            simp only [hparent] at hok
            cases hok
          | orphan =>
            simp only [hparent] at hok
            cases hok
          | via a =>
            simp only [hparent] at hp hok
            obtain ⟨j, hj, hok⟩ := bind_eq_ok_iff.1 hok
            obtain ⟨n, rfl⟩ : ∃ n', n = n' + 1 := ⟨n - 1, by omega⟩
            obtain ⟨w, hw, hshows, hsides⟩ := ih e (Nat.lt_succ_self e)
              (h.setMeasured hl hu (e + 1)) (Nat.le_of_succ_le_succ he) j g hok
            have hstep : markStep (v, u, e + 1) = .ok (.inl
                (v.setCell u { c with stamp := v.clock, depth := e + 1 }, j, e)) := by
              simp only [markStep, hc, h.clock_eq, if_neg hs, hp, arcs_setCell, h.arcs_eq, hj, bind,
                Except.bind, pure, Except.pure]
            exact ⟨w, repeatUntil_of_inl hstep hw, hshows, hsides.trans (sides_setCell hu rfl)⟩

/-! ## Looking for a parent -/

/-- **What an orphan does about an arc** around it. -/
theorem consider (h : v.Shows R f b) (hn : R.excess.size ≤ n) (side : Segment)
    (best : Option Forest.Candidate) (a : ArcRef) :
    Follows (fun p q => q.1.Shows R p.1 b ∧ q.2 = p.2 ∧ q.1.sides = v.sides)
      (Forest.considerInPlace R.arcs side f best a) (Solver.consider n side v best a) := by
  unfold Forest.considerInPlace Solver.consider
  rw [h.arcs_eq]
  refine (Follows.refl _).bind_of_eq fun capacity => ?_
  refine .ite Iff.rfl (fun _ => .ok ⟨h, rfl, rfl⟩) fun _ => ?_
  refine (Follows.refl _).bind_of_eq fun j => ?_
  refine (h.fetch j).bind ?_
  rintro o d ⟨hl, hj⟩
  cases o with
  | none =>
    have hfree : d.parent = none := Option.map_eq_none_iff.1 hl
    rw [if_pos (.inr hfree)]
    exact .ok ⟨h, rfl, rfl⟩
  | some l =>
    obtain ⟨hp, hside, -, -⟩ := Cell.of_label hl
    have hfree : d.parent ≠ none := by
      rw [hp]
      exact Option.some_ne_none _
    simp only [hside]
    refine .ite (by simp only [hfree, or_false]) (fun _ => .ok ⟨h, rfl, rfl⟩) fun _ => ?_
    refine (h.measure (h.size_labels.trans_le hn) 0 j).bind ?_
    rintro ⟨_, f₁⟩ ⟨o, w⟩ ⟨rfl, hw, hsides⟩
    cases o with
    | none => exact .ok ⟨hw, rfl, hsides⟩
    | some e =>
      refine (hw.markBelow (Nat.le_refl e) j).bind ?_
      rintro f₂ w₂ ⟨hw₂, hsides₂⟩
      exact .ok ⟨hw₂, rfl, hsides₂.trans hsides⟩

/-- **The search for a parent**, arc by arc.  Each arc must be looked at in place with the same
result. -/
theorem considerAll (h : v.Shows R f b) (hn : R.excess.size ≤ n) (side : Segment)
    {as : List ArcRef}
    (hplace : ∀ bs a cs g best', as = bs ++ a :: cs →
      Forest.considerAll R.arcs side f best bs = .ok (g, best') →
        ∃ p, Forest.considerInPlace R.arcs side g best' a = .ok p ∧
          Forest.consider R.arcs side g best' a = .ok p) :
    Follows (fun p q => q.1.Shows R p.1 b ∧ q.2 = p.2 ∧ q.1.sides = v.sides)
      (Forest.considerAll R.arcs side f best as) (Solver.considerAll n side v best as) := by
  induction as generalizing v f best with
  | nil => exact .ok ⟨h, rfl, rfl⟩
  | cons a as ih =>
    intro p hp
    obtain ⟨⟨f₁, _⟩, hfirst, hp⟩ := bind_eq_ok_iff.1 hp
    obtain ⟨q, hq, hq'⟩ := hplace [] a as f best rfl rfl
    obtain rfl := Except.ok.inj (hfirst.symm.trans hq')
    obtain ⟨⟨w, best₁⟩, hw, hshows, rfl, hsides⟩ := h.consider hn side best a _ hq
    have hrest : ∀ bs a' cs g best', as = bs ++ a' :: cs →
        Forest.considerAll R.arcs side f₁ best₁ bs = .ok (g, best') →
          ∃ p, Forest.considerInPlace R.arcs side g best' a' = .ok p ∧
            Forest.consider R.arcs side g best' a' = .ok p := by
      intro bs a' cs g best' has hbs
      refine hplace (a :: bs) a' cs g best' (by rw [has]; rfl) ?_
      exact bind_eq_ok_iff.2 ⟨_, hfirst, hbs⟩
    obtain ⟨q', hq', hshows', heq, hsides'⟩ := ih hshows hrest p hp
    exact ⟨q', bind_eq_ok_iff.2 ⟨_, hw, hq'⟩, hshows', heq, hsides'.trans hsides⟩

/-! ## Leaving a tree -/

theorem releaseAlong (h : v.Shows R f b) (side : Segment) (i : Nat) (a : ArcRef) :
    Follows (fun g w => w.Shows R g b) (Forest.releaseAlong R.arcs side i f a)
      (Solver.releaseAlong side i v a) := by
  unfold Forest.releaseAlong Solver.releaseAlong
  rw [h.arcs_eq]
  refine (Follows.refl _).bind_of_eq fun j => ?_
  refine (h.fetch j).bind ?_
  rintro o d ⟨hl, hj⟩
  cases o with
  | none =>
    have hfree : d.parent = none := Option.map_eq_none_iff.1 hl
    rw [if_pos (.inr hfree)]
    exact .ok h
  | some l =>
    obtain ⟨hp, hside, hstamp, hdepth⟩ := Cell.of_label hl
    have hfree : d.parent ≠ none := by
      rw [hp]
      exact Option.some_ne_none _
    simp only [hside]
    refine .ite (by simp only [hfree, or_false]) (fun _ => .ok h) fun _ => ?_
    refine (Follows.refl _).bind_of_eq fun capacity => ?_
    have hactivate : Follows (fun f₁ v₁ => v₁.Shows R f₁ b ∧ v₁.cells[j]? = some d)
        (f.activate j) (v.activate j) := by
      intro f₁ hf₁
      obtain ⟨v₁, hv₁, h₁⟩ := h.activate j f₁ hf₁
      obtain ⟨q, -, hq⟩ := bind_eq_ok_iff.1 hv₁
      obtain rfl := Except.ok.inj hq
      exact ⟨_, hv₁, h₁, hj⟩
    -- what is done about a child, whether or not it was made active
    refine .bind_ite Iff.rfl hactivate ⟨h, hj⟩ ?_
    rintro f₁ v₁ ⟨h₁, hj₁⟩
    rw [hp]
    cases l.parent with
    | root => exact .ok h₁
    | orphan => exact .ok h₁
    | via p =>
      simp only [h₁.arcs_eq, h₁.orphans_eq]
      refine (Follows.refl _).bind_of_eq fun y => ?_
      refine .ite Iff.rfl (fun _ => ?_) fun _ => .ok h₁
      exact .ok ((h₁.setOrphan hl hj₁).withOrphans _)

theorem releaseAll (h : v.Shows R f b) (side : Segment) (i : Nat) (as : List ArcRef) :
    Follows (fun g w => w.Shows R g b) (Forest.releaseAll R.arcs side i f as)
      (Solver.releaseAll side i v as) := by
  induction as generalizing v f with
  | nil => exact .ok h
  | cons a as ih =>
    refine (h.releaseAlong side i a).bind ?_
    intro g w hw
    exact ih hw

/-- **A node leaves its tree**, if its row lies within the references.  The tree and the depth in
its cell are left over. -/
theorem release (h : v.Shows R f b) (hc : v.cells[i]? = some c)
    (hrow : ∀ as, R.arcs.around i = .ok as → R.arcs.slice i = .ok as) (side : Segment) :
    Follows (fun g w => w.Shows R g b) (f.release R.arcs side i) (Solver.release side v i) := by
  have hset := h.setCell (d := { c with parent := none, stamp := 0 }) hc rfl
  have hslice : Follows Eq (R.arcs.around i) (R.arcs.slice i) :=
    fun as has => ⟨as, hrow as has, rfl⟩
  rw [Cell.label_of_none (c := { c with parent := none, stamp := 0 }) rfl] at hset
  unfold Forest.release Solver.release
  rw [fetch_eq_ok_iff.2 hc]
  show Follows _ _ ((v.setCell i _).arcs.slice i >>= _)
  rw [arcs_setCell, h.arcs_eq]
  refine hslice.bind_of_eq fun as => ?_
  exact hset.releaseAll side i as

/-- **An orphan is settled** in both.  The side that it was on when it lost its parent is still
written in its cell when its neighbours have been measured. -/
theorem settle (h : v.Shows R f b) (hn : R.excess.size ≤ n)
    (hrow : ∀ as, R.arcs.around i = .ok as → R.arcs.slice i = .ok as)
    (hplace : ∀ l as, f.labels[i]? = some (some l) → R.arcs.around i = .ok as →
      ∀ bs a cs g best, as = bs ++ a :: cs →
        Forest.considerAll R.arcs l.side f none bs = .ok (g, best) →
          ∃ p, Forest.considerInPlace R.arcs l.side g best a = .ok p ∧
            Forest.consider R.arcs l.side g best a = .ok p) :
    Follows (fun g w => w.Shows R g b) (f.settle R.arcs i) (Solver.settle n v i) := by
  intro g hg
  obtain ⟨o, ho, hg⟩ := bind_eq_ok_iff.1 hg
  obtain ⟨c, hfetch, hl, hc⟩ := h.fetch i o ho
  cases o with
  | none => cases hg
  | some l =>
    obtain ⟨as, has, hg⟩ := bind_eq_ok_iff.1 hg
    obtain ⟨⟨f₁, _⟩, hconsider, hg⟩ := bind_eq_ok_iff.1 hg
    obtain ⟨⟨w, best⟩, hconsider', hw, rfl, hsides⟩ :=
      h.considerAll hn l.side (hplace l as (fetch_eq_ok_iff.1 ho) has) _ hconsider
    replace hw : w.Shows R f₁ b := hw
    obtain ⟨-, hside, -, -⟩ := Cell.of_label hl
    rw [hside] at hconsider'
    have hi : i < w.cells.size := by
      rw [hw.size_cells, ← h.size_cells]
      exact (Array.getElem?_eq_some_iff.1 hc).1
    have hd : w.cells[i]? = some w.cells[i] := Array.getElem?_eq_getElem hi
    unfold Solver.settle
    simp only [hfetch, h.arcs_eq, hrow as has, hconsider', bind, Except.bind]
    cases best with
    | none => exact hw.release hd hrow c.side g (by rw [← hside]; exact hg)
    | some best =>
      obtain rfl := Except.ok.inj hg
      have hset := hw.setCell (d := { w.cells[i] with
        parent := some (.via best.arc), stamp := w.clock, depth := best.depth + 1 }) hd rfl
      have hkept : w.cells[i].side = l.side := (side_eq hsides hc hd).trans hside.symm
      rw [Cell.label_of_some rfl] at hset
      simp only [hkept, hw.clock_eq] at hset
      refine ⟨_, ?_, hset⟩
      simp only [fetch_eq_ok_iff.2 hd, hkept, hw.clock_eq]
      rfl

end Shows

end Solver

end MinCut
