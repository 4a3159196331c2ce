/-
# Solves in registers that refuse

A register that refuses every number that it does not keep as it is leaves no trace in what a solve
ends with: a solve that runs without error ran as one over the integers.  This asks nothing of the
network.  Sums for which there would be no room may exist, as long as the solve never comes to them.

Key facts:
* `Register.refuses_or_wrapping` : every register refuses or wraps around;
* `Register.Refuses.augment` : an augmentation is the same over the integers;
* `Register.Refuses.solve` and `Register.Refuses.after` : so is a solve, and any number of them.
-/
import MinCut.Paired
import MinCut.Solver.Run

namespace MinCut

/-- Two loops whose steps follow each other. -/
theorem Follows.repeatUntil {σ α : Type} {step step' : σ → Except Fault (σ ⊕ α)}
    (h : ∀ s, Follows Eq (step s) (step' s)) (n : Nat) (s : σ) :
    Follows Eq (MinCut.repeatUntil step n s) (MinCut.repeatUntil step' n s) := by
  induction n generalizing s with
  | zero =>
    unfold MinCut.repeatUntil
    exact (h s).bind_of_eq fun o => .refl _
  | succ n ih =>
    unfold MinCut.repeatUntil
    refine (h s).bind ?_
    rintro (s' | a) _ rfl
    · exact ih s'
    · exact .ok rfl

namespace Register

/-- A register that keeps a value as it is or refuses it. -/
def Refuses (r : Register) : Prop := ∀ x y : Int, r.store x = .ok y → y = x

/-- Only wrapping around changes a value. -/
theorem refuses_or_wrapping (r : Register) : r.Refuses ∨ ∃ bits, r = wrapping bits := by
  cases r with
  | exact => exact .inl fun x y h => (Except.ok.inj h).symm
  | wrapping bits => exact .inr ⟨bits, rfl⟩
  | bounded lo hi => exact .inl fun x y h => (store_bounded_eq_ok_iff.1 h).2

namespace Refuses

variable {r : Register} {v w : Solver} {k : Nat}

/-! ## Arithmetic -/

theorem store (hr : r.Refuses) (x : Int) : Follows Eq (r.store x) (exact.store x) := by
  intro y hy
  exact ⟨x, rfl, hr x y hy⟩

theorem push (hr : r.Refuses) (p : ArcPair) (d : Direction) (x : Int) :
    Follows Eq (p.push r d x) (p.push exact d x) := by
  intro q hq
  obtain ⟨along, against, halong, hagainst, rfl⟩ := ArcPair.push_eq_ok_iff.1 hq
  obtain rfl := hr _ _ halong
  obtain rfl := hr _ _ hagainst
  exact ⟨_, ArcPair.push_eq_ok_iff.2 ⟨_, _, rfl, rfl, rfl⟩, rfl⟩

theorem pushFlow (hr : r.Refuses) (t : ArcTable) (a : ArcRef) (x : Int) :
    Follows Eq (t.pushFlow r a x) (t.pushFlow exact a x) := by
  unfold ArcTable.pushFlow
  refine (Follows.refl _).bind_of_eq fun p => ?_
  exact (hr.push p a.direction x).bind_of_eq fun q => .refl _

theorem drain (hr : r.Refuses) (side : Segment) (x y : Int) :
    Follows Eq (Search.drain r side x y) (Search.drain exact side x y) := by
  cases side with
  | source => exact hr.store _
  | sink => exact hr.store _

/-! ## Augmenting -/

theorem bottleneck (hr : r.Refuses) (n : Nat) (v : Solver) (m : Meeting) :
    Follows Eq (v.bottleneck r n m) (v.bottleneck exact n m) := by
  unfold Solver.bottleneck
  refine (Follows.refl _).bind_of_eq fun x => ?_
  refine (Follows.refl _).bind ?_
  rintro ⟨y, s⟩ _ rfl
  refine (Follows.refl _).bind_of_eq fun c => ?_
  refine (Follows.refl _).bind ?_
  rintro ⟨z, t⟩ _ rfl
  refine (Follows.refl _).bind_of_eq fun d => ?_
  exact (hr.store _).bind_of_eq fun demand => .refl _

theorem pushStep (hr : r.Refuses) (side : Segment) (x : Int) (p : Solver × Nat) :
    Follows Eq (Solver.pushStep r side x p) (Solver.pushStep exact side x p) := by
  obtain ⟨v, u⟩ := p
  unfold Solver.pushStep
  refine (Follows.refl _).bind ?_
  rintro (_ | a) _ rfl
  · exact .refl _
  · exact (hr.pushFlow v.arcs (treeArc side a) x).bind_of_eq fun t => .refl _

theorem pushRoot (hr : r.Refuses) (side : Segment) (x : Int) (v : Solver) (u : Nat) :
    Follows Eq (v.pushRoot r side x u) (v.pushRoot exact side x u) := by
  unfold Solver.pushRoot
  refine (Follows.refl _).bind_of_eq fun c => ?_
  exact (hr.drain side x c.excess).bind_of_eq fun rest => .refl _

theorem pushUp (hr : r.Refuses) (n : Nat) (side : Segment) (x : Int) (v : Solver) (u : Nat) :
    Follows Eq (v.pushUp r n side x u) (v.pushUp exact n side x u) := by
  unfold Solver.pushUp
  refine (Follows.repeatUntil (hr.pushStep side x) n (v, u)).bind ?_
  rintro ⟨w, t⟩ _ rfl
  exact hr.pushRoot side x w t

/-- **An augmentation** that runs without error is one over the integers. -/
theorem augment (hr : r.Refuses) (n : Nat) (v : Solver) (m : Meeting) :
    Follows Eq (v.augment r n m) (v.augment exact n m) := by
  unfold Solver.augment
  refine (hr.bottleneck n v m).bind_of_eq fun x => ?_
  refine .ite Iff.rfl (fun _ => ?_) fun _ => .refl _
  refine (hr.pushFlow v.arcs m.middle x).bind_of_eq fun t => ?_
  refine (hr.pushUp n .source x _ m.sourceEnd).bind_of_eq fun v₁ => ?_
  refine (hr.pushUp n .sink x v₁ m.sinkEnd).bind_of_eq fun v₂ => ?_
  exact (hr.store _).bind_of_eq fun flow => .refl _

/-! ## Solving -/

theorem pass (hr : r.Refuses) (n : Nat) (p : Solver.Passage) :
    Follows Eq (Solver.pass r n p) (Solver.pass exact n p) := by
  unfold Solver.pass
  refine (Follows.refl _).bind ?_
  rintro ⟨_ | i, v⟩ _ rfl
  · exact .refl _
  · refine (Follows.refl _).bind ?_
    rintro ⟨v₁, _ | m⟩ _ rfl
    · exact .refl _
    · refine (Follows.refl _).bind_of_eq fun v₂ => ?_
      refine (hr.augment n v₂ m).bind ?_
      rintro ⟨v₃, a⟩ _ rfl
      exact .refl _

/-- **A solve** that runs without error is one over the integers. -/
theorem solve (hr : r.Refuses) (n : Nat) (v : Solver) :
    Follows Eq (v.solve r n) (v.solve exact n) := by
  unfold Solver.solve
  refine (Follows.refl _).bind_of_eq fun v₁ => ?_
  refine (Follows.repeatUntil (hr.pass n) n ⟨v₁, none, []⟩).bind ?_
  rintro ⟨w, as⟩ _ rfl
  exact .refl _

/-- **Any number of solves** that run without error are solves over the integers, by induction on
the solves. -/
theorem after (hr : r.Refuses) (h : Solver.After r v k w) : Solver.After exact v k w := by
  induction h with
  | zero => exact .zero
  | solve _ hsolve ih =>
    obtain ⟨_, hexact, rfl⟩ := hr.solve _ _ _ hsolve
    exact ih.solve hexact

end Refuses

end Register

end MinCut
