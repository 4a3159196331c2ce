/-
# Arcs between nodes

The reads of an arc table are checked, so each of them comes with a fault.  Where an arc is
known to exist, a read has a value: the two nodes between which the arc leads, and its
residual capacity.  A push along an arc moves residual capacity to its sister and changes
nothing else, whatever register does the arithmetic, as long as that register holds the
two new values.

Key facts:
* `capacity_shift` : what a push does to the residual capacity of every arc;
* `leads_shift` : a push leaves all arcs between their nodes;
* `pushFlow_eq_shift` : a push succeeds if the arc has the capacity and the register the room.
-/
import MinCut.ArcTable.Basic

namespace MinCut

/-! ## Registers with room -/

/-- A register that keeps every value from `-m` to `m` as it is. -/
def Register.Keeps (r : Register) (m : Int) : Prop :=
  ∀ x : Int, -m ≤ x → x ≤ m → r.store x = .ok x

namespace Register

theorem keeps_exact (m : Int) : exact.Keeps m := fun _ _ _ => rfl

theorem keeps_wrapping {bits : Nat} (h : 0 < bits) : (wrapping bits).Keeps (limit bits) :=
  fun _ lo hi => (store_eq_of_abs_le h lo hi).2.1

theorem keeps_signed {bits : Nat} (h : 0 < bits) : (signed bits).Keeps (limit bits) :=
  fun _ lo hi => (store_eq_of_abs_le h lo hi).2.2.1

theorem keeps_symmetric {bits : Nat} (h : 0 < bits) : (symmetric bits).Keeps (limit bits) :=
  fun _ lo hi => (store_eq_of_abs_le h lo hi).2.2.2

end Register

/-- The pair with `x` moved from the residual capacity of one arc to that of the other. -/
def ArcPair.shift (p : ArcPair) (d : Direction) (x : Int) : ArcPair :=
  (p.withResidual d (p.residual d - x)).withResidual d.opposite (p.residual d.opposite + x)

@[simp] theorem ArcPair.target_shift (p : ArcPair) (d e : Direction) (x : Int) :
    (p.shift d x).target e = p.target e := by
  simp [ArcPair.shift]

@[simp] theorem ArcPair.residual_shift (p : ArcPair) (d : Direction) (x : Int) :
    (p.shift d x).residual d = p.residual d - x := by
  simp [ArcPair.shift]

@[simp] theorem ArcPair.residual_opposite_shift (p : ArcPair) (d : Direction) (x : Int) :
    (p.shift d x).residual d.opposite = p.residual d.opposite + x := by
  simp [ArcPair.shift]

namespace ArcTable

variable {t : ArcTable} {a b : ArcRef} {u v w : Nat} {x : Int}

/-! ## Where an arc leads and what it can carry -/

/-- The arc `a` leads from the node `u` to the node `v`. -/
def Leads (t : ArcTable) (a : ArcRef) (u v : Nat) : Prop :=
  ∃ p, t.pairs[a.pair]? = some p ∧ p.target a.direction.opposite = u ∧ p.target a.direction = v

/-- The residual capacity of an arc, which is zero if there is no such arc. -/
def capacity (t : ArcTable) (a : ArcRef) : Int :=
  match t.pairs[a.pair]? with
  | some p => p.residual a.direction
  | none => 0

/-- The sister of an arc leads back. -/
theorem Leads.sister (h : t.Leads a u v) : t.Leads a.sister v u := by
  obtain ⟨p, hp, hu, hv⟩ := h
  refine ⟨p, hp, ?_, hu⟩
  show p.target a.direction.opposite.opposite = v
  rw [Direction.opposite_opposite, hv]

/-- An arc leads between one pair of nodes only. -/
theorem Leads.unique {u' v' : Nat} (h : t.Leads a u v) (h' : t.Leads a u' v') :
    u = u' ∧ v = v' := by
  obtain ⟨p, hp, rfl, rfl⟩ := h
  obtain ⟨p', hp', rfl, rfl⟩ := h'
  rw [hp] at hp'
  cases hp'
  exact ⟨rfl, rfl⟩

theorem Leads.head_eq (h : t.Leads a u v) : t.head a = .ok v := by
  obtain ⟨p, hp, -, hv⟩ := h
  exact head_eq_ok_iff.2 ⟨p, hp, hv⟩

theorem Leads.residual_eq (h : t.Leads a u v) : t.residual a = .ok (t.capacity a) := by
  obtain ⟨p, hp, -, -⟩ := h
  exact residual_eq_ok_iff.2 ⟨p, hp, by simp [capacity, hp]⟩

/-- What a pair of arcs keeps is what its two arcs can carry. -/
theorem capacity_of_getElem? {k : Nat} {p : ArcPair} {d : Direction}
    (h : t.pairs[k]? = some p) : t.capacity ⟨k, d⟩ = p.residual d := by
  simp [capacity, h]

/-! ## Moving capacity to the sister -/

/-- The table with `x` moved from the residual capacity of an arc to that of its sister. -/
def shift (t : ArcTable) (a : ArcRef) (x : Int) : ArcTable :=
  { t with pairs := t.pairs.modify a.pair (·.shift a.direction x) }

@[simp] theorem around_shift : (t.shift a x).around u = t.around u := rfl

@[simp] theorem size_pairs_shift : (t.shift a x).pairs.size = t.pairs.size := by
  simp [shift]

theorem getElem?_pairs_shift (k : Nat) : (t.shift a x).pairs[k]? =
    if a.pair = k then t.pairs[k]?.map (·.shift a.direction x) else t.pairs[k]? := by
  simp only [shift, Array.getElem?_modify]

/-- A push leaves all arcs between their nodes. -/
@[simp] theorem leads_shift : (t.shift a x).Leads b u v ↔ t.Leads b u v := by
  unfold Leads
  rw [getElem?_pairs_shift]
  by_cases h : a.pair = b.pair
  · cases hp : t.pairs[b.pair]? <;> simp [h]
  · simp [h]

/-- **A push moves residual capacity** from an arc to its sister, and leaves the residual
capacity of every other arc. -/
theorem capacity_shift (h : t.Leads a u v) : (t.shift a x).capacity b =
    if b = a then t.capacity a - x
    else if b = a.sister then t.capacity a.sister + x
    else t.capacity b := by
  obtain ⟨p, hp, -, -⟩ := h
  obtain ⟨k, d⟩ := a
  obtain ⟨j, e⟩ := b
  simp only at hp
  unfold capacity
  rw [getElem?_pairs_shift]
  -- within the pair there are four cases, and none elsewhere
  by_cases hj : k = j
  · subst hj
    cases d <;> cases e <;>
      simp [hp, ArcRef.sister, Direction.opposite, ArcPair.shift, ArcPair.withResidual,
        ArcPair.residual]
  · simp [hj, Ne.symm hj, ArcRef.sister]

/-- What an arc and its sister can carry together stays the same. -/
theorem capacity_add_shift (h : t.Leads a u v) :
    (t.shift a x).capacity b + (t.shift a x).capacity b.sister =
      t.capacity b + t.capacity b.sister := by
  have hne := a.sister_ne
  rw [capacity_shift h, capacity_shift h]
  by_cases hb : b = a
  · subst hb
    simp only [↓reduceIte, if_neg hne]
    omega
  · by_cases hs : b = a.sister
    · subst hs
      simp only [ArcRef.sister_sister, ↓reduceIte, if_neg hne]
      omega
    · have hb' : b.sister ≠ a := fun hc => hs (by rw [← hc, ArcRef.sister_sister])
      have hs' : b.sister ≠ a.sister := fun hc => hb (by
        rw [← ArcRef.sister_sister b, hc, ArcRef.sister_sister])
      simp only [if_neg hb, if_neg hs, if_neg hb', if_neg hs']

/-- A push succeeds if the arc has the capacity and the register has the room. -/
theorem pushFlow_eq_shift {r : Register} (h : t.Leads a u v)
    (along : r.store (t.capacity a - x) = .ok (t.capacity a - x))
    (against : r.store (t.capacity a.sister + x) = .ok (t.capacity a.sister + x))
    (nonneg : 0 ≤ t.capacity a - x) : t.pushFlow r a x = .ok (t.shift a x) := by
  obtain ⟨p, hp, -, -⟩ := h
  have hc : t.capacity a = p.residual a.direction := by simp [capacity, hp]
  have hs : t.capacity a.sister = p.residual a.direction.opposite := by
    simp [capacity, hp, ArcRef.sister]
  rw [hc] at along nonneg
  rw [hs] at against
  have hq := ArcPair.push_eq_ok_iff.2 ⟨_, _, along, against, rfl⟩
  unfold pushFlow
  simp only [fetch_eq_ok_iff.2 hp, hq, bind, Except.bind, pure, Except.pure]
  rw [if_neg (by simpa using nonneg), shift]
  congr 2
  apply Array.ext_getElem?
  intro k
  rw [Array.getElem?_modify, Array.getElem?_setIfInBounds]
  have hlt := (Array.getElem?_eq_some_iff.1 hp).1
  by_cases hk : a.pair = k
  · rw [if_pos hk, if_pos hk, if_pos hlt, ← hk, hp]
    rfl
  · rw [if_neg hk, if_neg hk]

end ArcTable

end MinCut
