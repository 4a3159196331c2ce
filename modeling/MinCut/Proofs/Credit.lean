/-
# The flow is only counted

A search adds what it pushes to its flow, but it never reads the flow: trees grow, paths are found,
amounts are pushed and orphans are adopted by looking at the arcs, the excesses and the labels
alone.  So a search with a credit on its flow does the same and ends with the same credit.

The values of the flow are exact here; in a register with bounds the flow may fit in one of two
searches and not in the other.

Key facts:
* `pushPath_credit` and `augment_credit` : an augmentation;
* `turn_credit` : one passage through the loop;
* `finish_credit` : the whole loop, by induction on its turns;
* `solve_credit` : a solve.
-/
import MinCut.Search.Run

namespace MinCut

/-! ## Computations that commute with a map -/

section Commuting

variable {ε α β γ δ κ : Type}

/-- Two computations go on alike from a value and from what it is mapped to. -/
theorem map_bind_eq {x : Except ε α} {f : α → β} {k : β → Except ε γ} {l : α → Except ε δ}
    {g : δ → γ} (h : ∀ a, k (f a) = (l a).map g) : (x.map f >>= k) = (x >>= l).map g := by
  cases x with
  | error e => rfl
  | ok a => exact h a

/-- Two computations go on alike from the same value. -/
theorem bind_eq_map_bind {x : Except ε α} {k : α → Except ε γ} {l : α → Except ε δ} {g : δ → γ}
    (h : ∀ a, k a = (l a).map g) : (x >>= k) = (x >>= l).map g := by
  cases x with
  | error e => rfl
  | ok a => exact h a

/-- Steps that commute with a map do so one after the other. -/
theorem foldlM_map_eq {step : α → κ → Except ε α} {f : α → α}
    (h : ∀ a k, step (f a) k = (step a k).map f) (ks : List κ) (a : α) :
    ks.foldlM step (f a) = (ks.foldlM step a).map f := by
  induction ks generalizing a with
  | nil => rfl
  | cons k ks ih =>
    rw [List.foldlM_cons, List.foldlM_cons, h]
    exact map_bind_eq ih

end Commuting

/-! ## Searches with a credit -/

/-- The search with `c` more on its flow. -/
def Search.credit (c : Int) (s : Search) : Search :=
  { s with residual.flow := s.residual.flow + c }

/-- The state at the head of the loop with `c` more on the flow. -/
def Run.credit (c : Int) (x : Run) : Run := { x with search := x.search.credit c }

/-- The turn with `c` more on the flow. -/
def Turn.credit (c : Int) : Turn → Turn
  | .finished s => .finished (s.credit c)
  | .next x a => .next (x.credit c) a

namespace Search

variable (c : Int) (s : Search) (r : Register) (x : Int)

@[simp] theorem arcs_credit : (s.credit c).residual.arcs = s.residual.arcs := rfl

/-! ## Pushing -/

theorem pushArc_credit (a : ArcRef) :
    (s.credit c).pushArc r x a = (s.pushArc r x a).map (credit c) :=
  bind_eq_map_bind fun _ => rfl

/-- A node loses its parent whatever the flow is. -/
theorem orphan_credit (u : Nat) :
    (do return { s.credit c with forest := ← s.forest.orphan u }) =
      (do return { s with forest := ← s.forest.orphan u } : Except Fault Search).map (credit c) :=
  bind_eq_map_bind fun _ => rfl

theorem pushStep_credit (side : Segment) (step : Nat × ArcRef) :
    (s.credit c).pushStep r side x step = (s.pushStep r side x step).map (credit c) := by
  unfold pushStep
  rw [pushArc_credit]
  refine map_bind_eq fun s₁ => bind_eq_map_bind fun rest => ?_
  split
  · exact s₁.orphan_credit c step.1
  · rfl

theorem pushRoot_credit (side : Segment) (u : Nat) :
    (s.credit c).pushRoot r side x u = (s.pushRoot r side x u).map (credit c) := by
  unfold pushRoot
  refine bind_eq_map_bind fun excess => bind_eq_map_bind fun rest => ?_
  split
  · rfl
  · split
    · exact orphan_credit c { s with residual.excess := s.residual.excess.setIfInBounds u rest } u
    · rfl

theorem pushAscent_credit (side : Segment) (p : Ascent) :
    (s.credit c).pushAscent r side x p = (s.pushAscent r side x p).map (credit c) := by
  unfold pushAscent
  rw [foldlM_map_eq fun s step => pushStep_credit c s r x side step]
  exact map_bind_eq fun s₁ => s₁.pushRoot_credit c r x side p.root

/-- **The push along a path** adds to the flow, whatever it is. -/
theorem pushPath_credit (p : Path) :
    (s.credit c).pushPath .exact x p = (s.pushPath .exact x p).map (credit c) := by
  unfold pushPath
  rw [pushArc_credit]
  refine map_bind_eq fun s₁ => ?_
  rw [pushAscent_credit]
  refine map_bind_eq fun s₂ => ?_
  rw [pushAscent_credit]
  refine map_bind_eq fun s₃ => ?_
  -- the credit is there before the amount is added as well as afterwards
  simp only [Register.store_exact, credit, bind, Except.bind, pure, Except.pure,
    Except.map, Int.add_right_comm]

/-- **An augmentation** pushes the same amount along the same path. -/
theorem augment_credit (m : Meeting) :
    (s.credit c).augment .exact m =
      (s.augment .exact m).map fun p => (p.1.credit c, p.2) := by
  unfold augment
  refine bind_eq_map_bind fun p => bind_eq_map_bind fun b => ?_
  split
  · rw [pushPath_credit]
    exact map_bind_eq fun _ => rfl
  · rfl

theorem repair_credit : (s.credit c).repair = s.repair.map (credit c) :=
  bind_eq_map_bind fun _ => rfl

theorem meet_credit (i : Nat) (m : Meeting) :
    (s.credit c).meet .exact i m = (s.meet .exact i m).map fun p => (p.1.credit c, p.2) := by
  unfold meet
  refine bind_eq_map_bind fun f => ?_
  show (augment .exact (credit c { s with forest := f }) m >>= _) = _
  rw [augment_credit]
  refine map_bind_eq fun p => ?_
  show ((p.1.credit c).repair >>= _) = _
  rw [repair_credit]
  exact map_bind_eq fun _ => rfl

end Search

/-! ## Passing through the loop -/

namespace Run

variable (c : Int) (x : Run)

/-- **One passage through the loop.** -/
theorem turn_credit : (x.credit c).turn .exact = (x.turn .exact).map (Turn.credit c) := by
  unfold turn
  refine bind_eq_map_bind fun p => ?_
  obtain ⟨chosen, f⟩ := p
  cases chosen with
  | none => rfl
  | some i =>
    refine bind_eq_map_bind fun p => ?_
    obtain ⟨g, meeting⟩ := p
    cases meeting with
    | none => rfl
    | some m =>
      show ((Search.credit c { x.search with forest := g }).meet .exact i m >>= _) = _
      rw [Search.meet_credit]
      exact map_bind_eq fun _ => rfl

/-- **The whole loop** augments the same paths. -/
theorem finish_credit (fuel : Nat) : (x.credit c).finish .exact fuel =
    (x.finish .exact fuel).map fun p => (p.1.credit c, p.2) := by
  induction fuel generalizing x with
  | zero =>
    unfold finish
    rw [turn_credit]
    refine map_bind_eq fun t => ?_
    cases t <;> rfl
  | succ fuel ih =>
    unfold finish
    rw [turn_credit]
    refine map_bind_eq fun t => ?_
    cases t with
    | finished s => rfl
    | next y a =>
      show ((y.credit c).finish .exact fuel >>= _) = _
      rw [ih]
      exact map_bind_eq fun _ => rfl

end Run

/-! ## Solving -/

namespace Search

variable (c : Int) (s : Search)

/-- The audit of a forest does not read the flow. -/
theorem audit_credit (f : Forest) : f.audit (s.credit c).residual = f.audit s.residual := by
  have hfrom : ∀ (ls : List (Option Label)) (u : Nat),
      Forest.auditFrom (s.credit c).residual f u ls = Forest.auditFrom s.residual f u ls := by
    intro ls
    induction ls with
    | nil => exact fun _ => rfl
    | cons l ls ih =>
      intro u
      cases l with
      | none => exact ih (u + 1)
      | some l =>
        show (Forest.auditLabel s.residual f u l >>= fun _ => _) = _
        rw [ih]
        rfl
  exact hfrom _ 0

theorem restart_credit : (s.credit c).restart = s.restart.map (credit c) :=
  bind_eq_map_bind fun _ => rfl

/-- **A solve does not read the flow.** -/
theorem solve_credit :
    (s.credit c).solve .exact = (s.solve .exact).map fun p => (p.1.credit c, p.2) := by
  unfold solve
  rw [restart_credit]
  refine map_bind_eq fun s₁ => ?_
  show ((Run.credit c ⟨s₁, none⟩).finish .exact s₁.patience >>= _) = _
  rw [Run.finish_credit]
  refine map_bind_eq fun p => ?_
  show (p.1.forest.audit (p.1.credit c).residual >>= _) = _
  rw [audit_credit]
  exact bind_eq_map_bind fun _ => rfl

end Search

end MinCut
