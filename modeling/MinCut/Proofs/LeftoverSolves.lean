/-
# Solves with leftovers

Orphans are settled alike in two solvers that agree but for what is left over in the cells of free
nodes: an orphan was in a tree, and the walks up from the nodes around it meet no free node.  With
that, whole solves go on and end alike.

Key facts:
* `Alike.settle` : an orphan is settled alike;
* `Alike.pass` : one passage through the loop;
* `Alike.init` : the solvers agree once the roots are planted;
* `alike_solve` : a solve as a whole.
-/
import MinCut.Proofs.Leftovers

namespace MinCut

namespace Solver

variable {r : Register} {v₀ w₀ v w : Solver} {as : List Augmentation} {phase : Phase} {n m : Nat}

namespace Alike

/-! ## Settling orphans -/

/-- The same depth was measured, if any. -/
def Measured (r : Register) (v₀ w₀ : Solver) (as : List Augmentation) (phase : Phase)
    (p q : Option Nat × Solver) : Prop :=
  q.1 = p.1 ∧ Alike r v₀ w₀ as phase p.2 q.2

/-- A walk up to the root meets no free node: its time is zero, which is past. -/
theorem measureStep (h : Alike r v₀ w₀ as phase v w) (hphase : phase ≠ .growing) (x : Nat × Nat) :
    Paired (Sum.LiftRel Eq (Measured r v₀ w₀ as phase)) (v.measureStep x) (w.measureStep x) := by
  obtain ⟨u, d⟩ := x
  have hpos := h.clock_pos hphase
  unfold Solver.measureStep
  rw [h.arcs_eq, h.clock_eq]
  refine (h.fetch u).bind ?_
  rintro c e (_ | ⟨hcp, -, hcs, -, -⟩)
  · refine .ite Iff.rfl (fun _ => .ok (.inr ⟨rfl, h⟩)) fun _ => ?_
    cases c.parent with
    | none => exact .error_left _
    | some p =>
      cases p with
      | root => exact .ok (.inr ⟨rfl, h.setCell u _⟩)
      | orphan => exact .ok (.inr ⟨rfl, h⟩)
      | via a =>
        refine (Paired.refl _).bind ?_
        rintro y _ rfl
        exact .ok (.inl rfl)
  · rw [if_neg (by omega), hcp]
    exact .error_left _

theorem measure (h : Alike r v₀ w₀ as phase v w) (hphase : phase ≠ .growing) (x : Nat × Nat) :
    Paired (Measured r v₀ w₀ as phase) (repeatUntil v.measureStep n x)
      (repeatUntil w.measureStep m x) := by
  refine Paired.repeatUntil (R := Eq) ?_ n m rfl
  rintro x _ rfl
  exact h.measureStep hphase x

theorem markStep (h : Alike r v₀ w₀ as phase v w) (hphase : phase ≠ .growing) (x : Nat × Nat) :
    Paired (Sum.LiftRel (fun p q => Alike r v₀ w₀ as phase p.1 q.1 ∧ q.2 = p.2)
      (Alike r v₀ w₀ as phase)) (Solver.markStep (v, x)) (Solver.markStep (w, x)) := by
  obtain ⟨u, d⟩ := x
  have hpos := h.clock_pos hphase
  unfold Solver.markStep
  simp only [h.clock_eq]
  refine (h.fetch u).bind ?_
  rintro c e (_ | ⟨hcp, -, hcs, -, -⟩)
  · refine .ite Iff.rfl (fun _ => .ok (.inr h)) fun _ => ?_
    cases d with
    | zero => exact .error_left _
    | succ d =>
      cases c.parent with
      | none => exact .error_left _
      | some p =>
        cases p with
        | root => exact .error_left _
        | orphan => exact .error_left _
        | via a =>
          show Paired _ (v.arcs.head a >>= _) (w.arcs.head a >>= _)
          rw [h.arcs_eq]
          refine (Paired.refl _).bind ?_
          rintro y _ rfl
          exact .ok (.inl ⟨h.setCell u _, rfl⟩)
  · rw [if_neg (by omega), hcp]
    cases d with
    | zero => exact .error_left _
    | succ d => exact .error_left _

theorem markBelow (h : Alike r v₀ w₀ as phase v w) (hphase : phase ≠ .growing) (x : Nat × Nat) :
    Paired (Alike r v₀ w₀ as phase) (repeatUntil Solver.markStep n (v, x))
      (repeatUntil Solver.markStep m (w, x)) := by
  refine Paired.repeatUntil (R := fun p q => Alike r v₀ w₀ as phase p.1 q.1 ∧ q.2 = p.2) ?_ n m
    ⟨h, rfl⟩
  rintro ⟨v, _⟩ ⟨w, x⟩ ⟨h, rfl⟩
  exact h.markStep hphase x

theorem consider (h : Alike r v₀ w₀ as phase v w) (hphase : phase ≠ .growing) (side : Segment)
    (best : Option Forest.Candidate) (a : ArcRef) :
    Paired (fun p q => Alike r v₀ w₀ as phase p.1 q.1 ∧ q.2 = p.2)
      (Solver.consider n side v best a) (Solver.consider m side w best a) := by
  unfold Solver.consider
  rw [h.arcs_eq]
  refine (Paired.refl _).bind ?_
  rintro capacity _ rfl
  refine .ite Iff.rfl (fun _ => .ok ⟨h, rfl⟩) fun _ => ?_
  refine (Paired.refl _).bind ?_
  rintro j _ rfl
  refine (h.fetch j).bind ?_
  rintro c e (_ | ⟨hcp, hep, -, -, -⟩)
  · refine .ite Iff.rfl (fun _ => .ok ⟨h, rfl⟩) fun _ => ?_
    refine (h.measure hphase (j, 0)).bind ?_
    rintro ⟨_, v₁⟩ ⟨o, w₁⟩ ⟨rfl, h₁⟩
    cases o with
    | none => exact .ok ⟨h₁, rfl⟩
    | some d =>
      refine (h₁.markBelow hphase (j, d)).bind ?_
      intro v₂ w₂ h₂
      exact .ok ⟨h₂, rfl⟩
  · rw [if_pos (.inr hcp), if_pos (.inr hep)]
    exact .ok ⟨h, rfl⟩

theorem considerAll (h : Alike r v₀ w₀ as phase v w) (hphase : phase ≠ .growing) (side : Segment)
    (best : Option Forest.Candidate) (bs : List ArcRef) :
    Paired (fun p q => Alike r v₀ w₀ as phase p.1 q.1 ∧ q.2 = p.2)
      (Solver.considerAll n side v best bs) (Solver.considerAll m side w best bs) := by
  induction bs generalizing v w best with
  | nil => exact .ok ⟨h, rfl⟩
  | cons a bs ih =>
    refine (h.consider hphase side best a).bind ?_
    rintro ⟨v₁, _⟩ ⟨w₁, best⟩ ⟨h₁, rfl⟩
    exact ih h₁ best

theorem releaseAlong (h : Alike r v₀ w₀ as phase v w) (side : Segment) (i : Nat) (a : ArcRef) :
    Paired (Alike r v₀ w₀ as phase) (Solver.releaseAlong side i v a)
      (Solver.releaseAlong side i w a) := by
  unfold Solver.releaseAlong
  rw [h.arcs_eq]
  refine (Paired.refl _).bind ?_
  rintro j _ rfl
  refine (h.fetch j).bind ?_
  rintro c e (_ | ⟨hcp, hep, -, -, -⟩)
  · refine .ite Iff.rfl (fun _ => .ok h) fun _ => ?_
    refine (Paired.refl _).bind ?_
    rintro capacity _ rfl
    -- what is done about a child, whether or not it was made active
    refine .bind_ite Iff.rfl (h.activate j) h ?_
    intro v₁ w₁ h₁
    cases c.parent with
    | none => exact .ok h₁
    | some p =>
      cases p with
      | root => exact .ok h₁
      | orphan => exact .ok h₁
      | via p =>
        simp only [h₁.arcs_eq, h₁.orphans_eq]
        refine (Paired.refl _).bind ?_
        rintro y _ rfl
        refine .ite Iff.rfl (fun _ => ?_) fun _ => .ok h₁
        refine .ok ((h₁.setCell j { c with parent := some .orphan }).withOrphans ?_)
        intro x hx
        rw [OrphanList.order_pushCascade, List.mem_append, List.mem_cons] at hx
        rcases hx with hx | rfl | hx
        · exact .inl (List.mem_append_left _ hx)
        · exact .inr (h₁.setCell_eq x _)
        · exact .inl (List.mem_append_right _ hx)
  · rw [if_pos (.inr hcp), if_pos (.inr hep)]
    exact .ok h

theorem releaseAll (h : Alike r v₀ w₀ as phase v w) (side : Segment) (i : Nat)
    (bs : List ArcRef) :
    Paired (Alike r v₀ w₀ as phase) (Solver.releaseAll side i v bs)
      (Solver.releaseAll side i w bs) := by
  induction bs generalizing v w with
  | nil => exact .ok h
  | cons a bs ih =>
    refine (h.releaseAlong side i a).bind ?_
    intro v₁ w₁ h₁
    exact ih h₁

/-- **An orphan is settled** alike: it was in a tree, so nothing is left over in its cell. -/
theorem settle {i : Nat} (h : Alike r v₀ w₀ as (.settling i) v w) :
    Paired (Alike r v₀ w₀ as (.settling i)) (Solver.settle n v i) (Solver.settle m w i) := by
  have hphase : Phase.settling i ≠ .growing := fun hf => nomatch hf
  unfold Solver.settle
  refine (fetch_eq (h.settling_eq i rfl)).bind ?_
  rintro c _ rfl
  rw [h.arcs_eq]
  refine (Paired.refl _).bind ?_
  rintro bs _ rfl
  refine (h.considerAll hphase c.side none bs).bind ?_
  rintro ⟨v₁, _⟩ ⟨w₁, best⟩ ⟨h₁, rfl⟩
  cases best with
  | some b =>
    refine (fetch_eq (h₁.settling_eq i rfl)).bind ?_
    rintro d _ rfl
    rw [h₁.clock_eq]
    exact .ok (h₁.setCell i _)
  | none =>
    show Paired _ (Solver.release c.side v₁ i) (Solver.release c.side w₁ i)
    unfold Solver.release
    refine (fetch_eq (h₁.settling_eq i rfl)).bind ?_
    rintro d _ rfl
    have hset := h₁.setCell i { d with parent := none, stamp := 0 }
    simp only [hset.arcs_eq]
    refine (Paired.refl _).bind ?_
    rintro bs _ rfl
    exact hset.releaseAll c.side i bs

theorem adoptStep (h : Alike r v₀ w₀ as .repairing v w) :
    Paired (Sum.LiftRel (Alike r v₀ w₀ as .repairing) (Alike r v₀ w₀ as .repairing))
      (Solver.adoptStep n v) (Solver.adoptStep m w) := by
  unfold Solver.adoptStep
  rw [h.orphans_eq]
  cases hnext : v.orphans.next? with
  | none => exact .ok (.inr h)
  | some p =>
    obtain ⟨i, o⟩ := p
    have horder := OrphanList.order_next? hnext
    have hpos := h.clock_pos fun hf => nomatch hf
    have hrest : Alike r v₀ w₀ as (.settling i) { v with orphans := o } { w with orphans := o } :=
      { h.withOrphans (o := o) fun u hu =>
          .inl (by rw [horder]; exact List.mem_cons_of_mem i hu) with
        settling_eq := by
          rintro u ⟨⟩
          exact h.orphan_eq i (by rw [horder]; exact List.mem_cons_self)
        clock_pos := fun _ => hpos }
    refine hrest.settle.bind ?_
    intro v₁ w₁ h₁
    obtain ⟨k, hk, hk'⟩ := h₁.adoptions_eq
    exact .ok (.inl { h₁ with
      settling_eq := fun u hu => nomatch hu
      clock_pos := fun _ => h₁.clock_pos fun hf => nomatch hf
      adoptions_eq := ⟨k + 1, congrArg (· + 1) hk, congrArg (· + 1) hk'⟩ })

/-- **All orphans are settled** alike. -/
theorem adopt (h : Alike r v₀ w₀ as .repairing v w) :
    Paired (Alike r v₀ w₀ as .repairing) (v.adopt n) (w.adopt m) :=
  Paired.repeatUntil (fun _ _ h => adoptStep h) n m h

/-! ## Passing through the loop -/

/-- The two loops stand at the same head. -/
def AtSameHead (r : Register) (v₀ w₀ : Solver) (x y : Passage) : Prop :=
  y.held = x.held ∧ y.told = x.told ∧ Alike r v₀ w₀ x.told .growing x.solver y.solver

/-- The two loops have ended alike. -/
def EndAlike (r : Register) (v₀ w₀ : Solver) (p q : Solver × List Augmentation) : Prop :=
  q.2 = p.2 ∧ Alike r v₀ w₀ p.2 .growing p.1 q.1

/-- **One passage through the loop.** -/
theorem pass {x y : Passage} (h : AtSameHead r v₀ w₀ x y) :
    Paired (Sum.LiftRel (AtSameHead r v₀ w₀) (EndAlike r v₀ w₀)) (Solver.pass r n x)
      (Solver.pass r m y) := by
  obtain ⟨v, held, told⟩ := x
  obtain ⟨w, _, _⟩ := y
  obtain ⟨rfl, rfl, h⟩ := h
  unfold Solver.pass
  refine (h.choose _).bind ?_
  rintro ⟨_, v₁⟩ ⟨chosen, w₁⟩ ⟨rfl, h₁, heq⟩
  cases chosen with
  | none => exact .ok (.inr ⟨rfl, h₁⟩)
  | some i =>
    refine (h₁.grow (heq i rfl)).bind ?_
    rintro ⟨v₂, _⟩ ⟨w₂, o⟩ ⟨h₂, hpos, rfl⟩
    cases o with
    | none => exact .ok (.inl ⟨rfl, rfl, h₂⟩)
    | some mt =>
      -- the time has advanced, so zero is past
      have hrepair : Alike r v₀ w₀ _ .repairing v₂ w₂ :=
        { h₂ with
          settling_eq := fun u hu => nomatch hu
          clock_pos := fun _ => hpos }
      refine (hrepair.mark i true).bind ?_
      intro v₃ w₃ h₃
      refine (h₃.augment mt).bind ?_
      rintro ⟨v₄, _⟩ ⟨w₄, a⟩ ⟨h₄, rfl⟩
      refine h₄.adopt.bind ?_
      intro v₅ w₅ h₅
      exact .ok (.inl ⟨rfl, rfl, { h₅ with
        settling_eq := fun u hu => nomatch hu
        clock_pos := fun hf => absurd rfl hf }⟩)

/-! ## Solving -/

/-- The roots are told from the excesses. -/
theorem activateRoots_paired (h : w.excess = v.excess) :
    Paired Eq (activateRoots v.cells) (activateRoots w.cells) := by
  have hstep : ∀ (q q' : ActiveQueue) (u : Nat), q = q' →
      Paired Eq (activateRoot v.cells q u) (activateRoot w.cells q' (id u)) := by
    rintro q _ u rfl
    refine (fetch_excess h u).bind ?_
    intro c d hcd
    rw [hcd]
    exact Paired.refl _
  have hfold := Paired.foldlM hstep (List.range v.cells.size)
    (rfl : ActiveQueue.ofSize v.cells.size = _)
  rw [List.map_id] at hfold
  unfold activateRoots
  rw [size_cells_eq h]
  exact hfold

/-- A node without excess keeps the tree and the depth that were left in its cell; any other cell
is written anew. -/
theorem planted_eq_or {c d : Cell} (h : d.excess = c.excess) :
    d.planted = c.planted ∨ c.excess = 0 := by
  by_cases hzero : c.excess = 0
  · exact .inr hzero
  · left
    simp only [Cell.planted, h, if_neg hzero]

theorem isLeftOver_planted {u : Nat} {c : Cell} (hc : v.cells[u]? = some c)
    (hzero : c.excess = 0) {q : ActiveQueue} :
    IsLeftOver v { v with
      cells := v.cells.map Cell.planted
      active := q
      orphans := .empty
      clock := 0 } u := by
  refine ⟨c, c.planted, hc, ?_, ?_⟩
  · simp only [Array.getElem?_map, hc, Option.map_some]
  · simp only [Cell.planted, if_pos hzero, and_self]

/-- **The solvers agree when the roots are planted**, whatever they were left with. -/
theorem init (harcs : w.arcs = v.arcs) (hexcess : w.excess = v.excess)
    (hreparent : w.reparent = v.reparent) :
    Paired (Alike r v w [] .growing) v.init w.init := by
  unfold Solver.init
  refine (activateRoots_paired hexcess).bind ?_
  rintro q _ rfl
  refine .ok ⟨harcs, ?_, rfl, rfl, rfl, hreparent, ?_, ?_, ?_, ?_, rfl, rfl, rfl, rfl, 0, rfl, rfl⟩
  · have hmap : Cell.excess ∘ Cell.planted = Cell.excess := funext Cell.excess_planted
    simp only [excess, Array.map_map, hmap] at hexcess ⊢
    exact hexcess
  · intro u
    by_cases hu : u < v.cells.size
    · have hw : u < w.cells.size := by
        rw [size_cells_eq hexcess]
        exact hu
      have hc : v.cells[u]? = some v.cells[u] := Array.getElem?_eq_getElem hu
      have hd : w.cells[u]? = some w.cells[u] := Array.getElem?_eq_getElem hw
      have heq := fetch_excess hexcess u _ _ (fetch_eq_ok_iff.2 hc) (fetch_eq_ok_iff.2 hd)
      rcases planted_eq_or heq with hplanted | hzero
      · left
        simp only [Array.getElem?_map, hc, hd, Option.map_some, hplanted]
      · exact .inr ⟨isLeftOver_planted hc hzero, isLeftOver_planted hd (heq.trans hzero)⟩
    · left
      have hw : ¬ u < w.cells.size := by
        rw [size_cells_eq hexcess]
        exact hu
      simp only [Array.getElem?_map, Array.getElem?_eq_none (Nat.le_of_not_lt hu),
        Array.getElem?_eq_none (Nat.le_of_not_lt hw), Option.map_none]
  · intro u hu
    cases hu
  · intro u hu
    cases hu
  · intro hf
    exact absurd rfl hf

end Alike

/-- **Two solves of solvers that agree in what is not left over** go on and end alike. -/
theorem alike_solve (harcs : w.arcs = v.arcs) (hexcess : w.excess = v.excess)
    (hreparent : w.reparent = v.reparent) :
    Paired (Alike.EndAlike r v w) (v.solve r n) (w.solve r m) := by
  unfold solve
  have hinit : Paired (Alike r v w [] .growing) v.init w.init :=
    Alike.init harcs hexcess hreparent
  refine hinit.bind ?_
  intro v₁ w₁ h₁
  have hstart : Alike.AtSameHead r v w ⟨v₁, none, []⟩ ⟨w₁, none, []⟩ := ⟨rfl, rfl, h₁⟩
  refine (Paired.repeatUntil (fun _ _ h => Alike.pass h) n m hstart).bind ?_
  rintro ⟨v₂, as⟩ ⟨w₂, _⟩ ⟨rfl, h₂⟩
  -- the check of either solver only refuses
  refine Paired.bind (R := fun _ _ => True) (fun _ _ _ _ => trivial) ?_
  rintro ⟨⟩ ⟨⟩ -
  exact .ok ⟨rfl, h₂⟩

end Solver

end MinCut
