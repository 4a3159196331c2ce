/-
# Faults

A fault is what stops a computation on a flow network from inside: an index outside
its array, a number too large for its register, a walk that does not end, or a search
forest that is not one.  Every operation that could meet a fault says so in its type
`Except Fault _`, so "nothing goes wrong" is a statement about a value.

Main facts: `fetch_eq_ok_iff` and `fetch_eq_error_iff`, which say when a checked read
succeeds and when it fails, `bind_eq_ok_iff`, which takes a computation apart, and
`EndsWithin.step`, which counts the steps of a walk.
-/
namespace MinCut

/-! ## The kinds of fault -/

/-- What can stop a computation on a flow network from inside. -/
inductive Fault where
  /-- An array of `size` entries was asked for the entry `index`, which it does not have. -/
  | outOfRange (index size : Nat)
  /-- The value of an arithmetic step does not fit its register. -/
  | overflow
  /-- A walk or a loop took more steps than its bound allows. -/
  | endless
  /-- A node on an augmenting path is in neither tree or waits for a parent. -/
  | brokenPath (node : Nat)
  /-- A node in neither tree lies on the way from a node to its root. -/
  | freeOnChain (node : Nat)
  /-- A node lies above a measured one but its depth is not as measured. -/
  | unmeasured (node : Nat)
  /-- An augmenting path has no capacity left. -/
  | emptyPath
  /-- More was pushed along an arc of the pair `pair` than its residual capacity. -/
  | negativeResidual (pair : Nat)
  /-- More was pushed through a root than the capacity that binds it to its terminal. -/
  | rootPastZero (node : Nat)
  /-- A node's label contradicts the labels or residual capacities around it. -/
  | corruptForest (node : Nat)
  deriving DecidableEq

/-! ## Steps in sequence -/

/-- Two steps succeed if the first one does and the second one does on its value. -/
theorem bind_eq_ok_iff {ε α β : Type} {x : Except ε α} {k : α → Except ε β} {b : β} :
    (x >>= k) = .ok b ↔ ∃ a, x = .ok a ∧ k a = .ok b := by
  cases x with
  | error e => simp [bind, Except.bind]
  | ok a => simp [bind, Except.bind]

/-- What a step that succeeds is mapped to. -/
theorem map_eq_ok_iff {ε α β : Type} {x : Except ε α} {f : α → β} {b : β} :
    x.map f = .ok b ↔ ∃ a, x = .ok a ∧ f a = b := by
  cases x with
  | error e => simp [Except.map]
  | ok a => simp [Except.map]

/-- A step that fails is mapped to its fault. -/
theorem map_eq_error_iff {ε α β : Type} {x : Except ε α} {f : α → β} {e : ε} :
    x.map f = .error e ↔ x = .error e := by
  cases x with
  | error e => simp [Except.map]
  | ok a => simp [Except.map]

/-! ## Walks and loops -/

/-- A walk or a loop that is given a bound on its steps **ends within** `n` of them with the value
`a`: it has this value for every bound from `n` on. -/
def EndsWithin {α : Type} (n : Nat) (walk : Nat → Except Fault α) (a : α) : Prop :=
  ∀ k, n ≤ k → walk k = .ok a

theorem EndsWithin.eq {α : Type} {n : Nat} {walk : Nat → Except Fault α} {a : α}
    (h : EndsWithin n walk a) : walk n = .ok a := h n (Nat.le_refl n)

theorem EndsWithin.mono {α : Type} {m n : Nat} {walk : Nat → Except Fault α} {a : α}
    (h : EndsWithin n walk a) (hle : n ≤ m) : EndsWithin m walk a :=
  fun k hk => h k (Nat.le_trans hle hk)

/-- One step more than the rest takes. -/
theorem EndsWithin.step {α β : Type} {n : Nat} {walk : Nat → Except Fault α} {a : α}
    {rest : Nat → Except Fault β} {b : β} (h : EndsWithin n rest b)
    (hwalk : ∀ k, rest k = .ok b → walk (k + 1) = .ok a) : EndsWithin (n + 1) walk a := by
  intro k hk
  obtain ⟨j, rfl⟩ : ∃ j, k = j + 1 := ⟨k - 1, by omega⟩
  exact hwalk j (h j (by omega))

/-! ## Checked reads -/

/-- The entry `i` of an array, or the fault that there is none. -/
def fetch {α : Type} (xs : Array α) (i : Nat) : Except Fault α :=
  match xs[i]? with
  | some x => .ok x
  | none => .error (.outOfRange i xs.size)

/-- A checked read succeeds with exactly the entry that is there. -/
theorem fetch_eq_ok_iff {α : Type} {xs : Array α} {i : Nat} {x : α} :
    fetch xs i = .ok x ↔ xs[i]? = some x := by
  unfold fetch
  cases h : xs[i]? <;> simp

/-- A checked read fails exactly on an index past the end. -/
theorem fetch_eq_error_iff {α : Type} {xs : Array α} {i : Nat} {e : Fault} :
    fetch xs i = .error e ↔ xs.size ≤ i ∧ e = .outOfRange i xs.size := by
  unfold fetch
  cases h : xs[i]? with
  | none =>
    have hi : xs.size ≤ i := by simpa using h
    simp [hi, eq_comm]
  | some x =>
    have hi : ¬ xs.size ≤ i := by
      obtain ⟨hi, _⟩ := Array.getElem?_eq_some_iff.1 h
      omega
    simp [hi]

/-- A checked read inside the array gives the entry. -/
theorem fetch_of_lt {α : Type} {xs : Array α} {i : Nat} (h : i < xs.size) :
    fetch xs i = .ok xs[i] := by
  simp [fetch, h]

end MinCut
