/-
# Arcs

Each edge of a network is a pair of arcs, the forward arc from its tail to its head and
the reverse arc back, and the two arcs of a pair are sisters.  A pair keeps the residual
capacity of both arcs: what is pushed along an arc is taken from its residual capacity
and given to its sister's.

Main facts: `ArcRef.sister_sister`, and `ArcPair.push_eq_ok_iff`, which says what a push
does to both residual capacities.
-/
import MinCut.Network
import MinCut.Register

namespace MinCut

/-! ## References to arcs -/

/-- Which arc of a pair is meant. -/
inductive Direction where
  | forward
  | reverse
  deriving DecidableEq

/-- The other arc of a pair. -/
def Direction.opposite : Direction → Direction
  | forward => reverse
  | reverse => forward

/-- A reference to one arc of one pair. -/
structure ArcRef where
  /-- The number of the pair, which is the number of its edge. -/
  pair : Nat
  direction : Direction
  deriving DecidableEq

/-- The arc that leads back. -/
def ArcRef.sister (a : ArcRef) : ArcRef := { a with direction := a.direction.opposite }

@[simp] theorem Direction.opposite_opposite (d : Direction) : d.opposite.opposite = d := by
  cases d <;> rfl

@[simp] theorem ArcRef.sister_sister (a : ArcRef) : a.sister.sister = a := by
  simp [ArcRef.sister]

@[simp] theorem ArcRef.pair_sister (a : ArcRef) : a.sister.pair = a.pair := rfl

/-- No arc is its own sister. -/
theorem ArcRef.sister_ne (a : ArcRef) : a.sister ≠ a := by
  obtain ⟨k, d⟩ := a
  cases d <;> simp [ArcRef.sister, Direction.opposite]

/-! ## Pairs of arcs -/

/-- An edge as the pair of its arcs. -/
structure ArcPair where
  /-- The node that the forward arc leaves. -/
  tail : Nat
  /-- The node that the forward arc enters. -/
  head : Nat
  /-- The residual capacity of the forward arc. -/
  forward : Int
  /-- The residual capacity of the reverse arc. -/
  reverse : Int
  deriving DecidableEq

namespace ArcPair

/-- The pair of arcs of an edge on which nothing flows yet. -/
def ofEdge (e : Edge) : ArcPair := ⟨e.tail, e.head, e.capacity, e.reverseCapacity⟩

/-- The node that an arc of the pair enters. -/
def target (p : ArcPair) : Direction → Nat
  | .forward => p.head
  | .reverse => p.tail

/-- The residual capacity of an arc of the pair. -/
def residual (p : ArcPair) : Direction → Int
  | .forward => p.forward
  | .reverse => p.reverse

/-- The pair with the residual capacity `c` on one of its arcs. -/
def withResidual (p : ArcPair) (d : Direction) (c : Int) : ArcPair :=
  match d with
  | .forward => { p with forward := c }
  | .reverse => { p with reverse := c }

/-! ## Pushes -/

/-- The pair after `x` was taken from the residual capacity of one of its arcs. -/
def take (r : Register) (p : ArcPair) (d : Direction) (x : Int) : Except Fault ArcPair := do
  return p.withResidual d (← r.store (p.residual d - x))

/-- The pair after `x` was given to the residual capacity of one of its arcs. -/
def give (r : Register) (p : ArcPair) (d : Direction) (x : Int) : Except Fault ArcPair := do
  return p.withResidual d (← r.store (p.residual d + x))

/-- The pair after `x` was pushed along one of its arcs. -/
def push (r : Register) (p : ArcPair) (d : Direction) (x : Int) : Except Fault ArcPair := do
  let q ← p.take r d x
  q.give r d.opposite x

/-- The pair after as much of a push as its register allows: what the sister has no room
for is lost, and what cannot be taken from the arc is not given to the sister either. -/
def pushUntilFault (r : Register) (p : ArcPair) (d : Direction) (x : Int) : ArcPair :=
  match p.take r d x with
  | .error _ => p
  | .ok q =>
    match q.give r d.opposite x with
    | .error _ => q
    | .ok q' => q'

/-! ## What a push does -/

@[simp] theorem residual_withResidual (p : ArcPair) (d : Direction) (c : Int) :
    (p.withResidual d c).residual d = c := by
  cases d <;> rfl

@[simp] theorem residual_opposite_withResidual (p : ArcPair) (d : Direction) (c : Int) :
    (p.withResidual d c).residual d.opposite = p.residual d.opposite := by
  cases d <;> rfl

@[simp] theorem residual_withResidual_opposite (p : ArcPair) (d : Direction) (c : Int) :
    (p.withResidual d.opposite c).residual d = p.residual d := by
  cases d <;> rfl

@[simp] theorem target_withResidual (p : ArcPair) (d e : Direction) (c : Int) :
    (p.withResidual d c).target e = p.target e := by
  cases d <;> cases e <;> rfl

/-- **A push moves residual capacity** from an arc to its sister. -/
theorem push_eq_ok_iff {r : Register} {p q : ArcPair} {d : Direction} {x : Int} :
    p.push r d x = .ok q ↔ ∃ along against, r.store (p.residual d - x) = .ok along ∧
      r.store (p.residual d.opposite + x) = .ok against ∧
      q = (p.withResidual d along).withResidual d.opposite against := by
  simp only [push, take, give, bind_eq_ok_iff, pure, Except.pure, Except.ok.injEq]
  constructor
  · rintro ⟨_, ⟨along, ha, rfl⟩, against, hg, rfl⟩
    exact ⟨along, against, ha, by simpa using hg, rfl⟩
  · rintro ⟨along, against, ha, hg, rfl⟩
    exact ⟨_, ⟨along, ha, rfl⟩, against, by simpa using hg, rfl⟩

/-- A push that succeeds is made to its end. -/
theorem pushUntilFault_eq {r : Register} {p q : ArcPair} {d : Direction} {x : Int}
    (h : p.push r d x = .ok q) : p.pushUntilFault r d x = q := by
  obtain ⟨m, hm, hq⟩ := bind_eq_ok_iff.1 h
  simp [pushUntilFault, hm, hq]

end ArcPair

end MinCut
