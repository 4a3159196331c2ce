/-
# The check before the first search

Before a graph is searched for the first time, sums of capacities are formed in its register,
and if one of them does not fit, the graph is refused.  The numbers summed are not negative,
so the partial sums fit if the whole sum does; the check is therefore exact.

Key facts:
* `IsMachine.keeps` and `keeps_of_mem_compared` : the registers that have room;
* `checkOverflow_of_fits` and `fits_of_checkOverflow` : the check says that the capacities
  leave room.
-/
import MinCut.Graph.Solve
import MinCut.Proofs.Outset

namespace MinCut

namespace Register

variable {r : Register} {bits : Nat} {m x y : Int}

/-! ## Machine registers -/

/-- A register that holds the signed numbers of `bits` bits and either refuses every other
number or wraps around. -/
def IsMachine (r : Register) (bits : Nat) : Prop :=
  0 < bits ∧ (r = signed bits ∨ r = wrapping bits)

/-- The registers that are compared: without bounds, wrapping around, refusing what is no
signed number, and refusing what has no negative. -/
def compared (bits : Nat) : List Register := [exact, wrapping bits, signed bits, symmetric bits]

theorem limit_nonneg (bits : Nat) : 0 ≤ limit bits := by
  have hpos : 0 < numValues (bits - 1) := by
    rw [numValues, Nat.one_shiftLeft]
    exact Nat.two_pow_pos _
  unfold limit
  omega

theorem keeps_of_mem_compared (h : 0 < bits) (hr : r ∈ compared bits) : r.Keeps (limit bits) := by
  simp only [compared, List.mem_cons, List.not_mem_nil, or_false] at hr
  rcases hr with rfl | rfl | rfl | rfl
  · exact keeps_exact _
  · exact keeps_wrapping h
  · exact keeps_signed h
  · exact keeps_symmetric h

theorem IsMachine.mem_compared (h : r.IsMachine bits) : r ∈ compared bits := by
  rcases h.2 with rfl | rfl <;> simp [compared]

theorem IsMachine.keeps (h : r.IsMachine bits) : r.Keeps (limit bits) :=
  keeps_of_mem_compared h.1 h.mem_compared

/-- Every value that has room is a value of each of the registers. -/
theorem fits_of_mem_compared (hr : r ∈ compared bits) (hlo : 0 ≤ x) (hhi : x ≤ limit bits) :
    r.fits x = true := by
  have hlimit := limit_nonneg bits
  simp only [compared, List.mem_cons, List.not_mem_nil, or_false] at hr
  rcases hr with rfl | rfl | rfl | rfl
  · rfl
  · simp only [fits, Bool.and_eq_true, decide_eq_true_eq]
    omega
  · exact fits_bounded_iff.2 (by omega)
  · exact fits_bounded_iff.2 (by omega)

/-- A value of a machine register has room. -/
theorem IsMachine.le_limit (h : r.IsMachine bits) (hx : r.fits x = true) : x ≤ limit bits := by
  rcases h.2 with rfl | rfl
  · exact (fits_bounded_iff.1 hx).2
  · simp only [fits, Bool.and_eq_true, decide_eq_true_eq] at hx
    exact hx.2

/-- A machine register holds every value that has room. -/
theorem IsMachine.fits_of_le (h : r.IsMachine bits) (hlo : -limit bits ≤ x) (hhi : x ≤ limit bits) :
    r.fits x = true := by
  rcases h.2 with rfl | rfl
  · exact fits_bounded_iff.2 (by omega)
  · simp only [fits, Bool.and_eq_true, decide_eq_true_eq]
    omega

/-! ## Checked sums -/

/-- A checked sum that is found is the sum, and has room if all values of the register do. -/
theorem checkedSum_eq_some (hle : ∀ x, r.fits x = true → x ≤ m) {xs : List Int} {s : Int}
    (hs : s ≤ m) (h : xs.foldlM r.checkedAdd s = some y) : y = s + xs.sum ∧ y ≤ m := by
  induction xs generalizing s with
  | nil =>
    obtain rfl : s = y := by simpa [pure] using h
    simpa using hs
  | cons x xs ih =>
    rw [List.foldlM_cons] at h
    obtain ⟨z, hz, hrest⟩ := Option.bind_eq_some_iff.1 h
    obtain ⟨hfit, rfl⟩ := checkedAdd_eq_some_iff.1 hz
    obtain ⟨hy, hle'⟩ := ih (hle _ hfit) hrest
    refine ⟨?_, hle'⟩
    rw [hy, List.sum_cons]
    omega

/-- The sum of numbers that are not negative is found if it has room. -/
theorem exists_checkedSum (hfit : ∀ x, 0 ≤ x → x ≤ m → r.fits x = true) {xs : List Int}
    (hxs : ∀ x ∈ xs, 0 ≤ x) {s : Int} (hs : 0 ≤ s) (hle : s + xs.sum ≤ m) :
    ∃ y, xs.foldlM r.checkedAdd s = some y := by
  induction xs generalizing s with
  | nil => exact ⟨s, rfl⟩
  | cons x xs ih =>
    rw [List.sum_cons] at hle
    have hx := hxs x List.mem_cons_self
    have hxs' : ∀ y ∈ xs, 0 ≤ y := fun y hy => hxs y (List.mem_cons_of_mem x hy)
    -- no later number is negative, so the partial sum has room if the whole sum has
    have hrest : 0 ≤ xs.sum := List.sum_nonneg hxs'
    have hadd : r.checkedAdd s x = some (s + x) :=
      checkedAdd_eq_some_iff.2 ⟨hfit _ (by omega) (by omega), rfl⟩
    rw [List.foldlM_cons, hadd]
    exact ih hxs' (by omega) (by omega)

end Register

namespace Graph

variable {r : Register} {N : Network} {m : Int}

/-! ## The check before the first search -/

/-- Capacities that leave room pass the check, in a register that holds the numbers from zero
to `m`. -/
theorem checkOverflow_of_fits (hfit : ∀ x, 0 ≤ x → x ≤ m → r.fits x = true)
    (hN : N.WellFormed) (hm : N.Fits m) : checkOverflow r N = .ok () := by
  have hedges : edgesFit r N = true := by
    rw [edgesFit, Array.all_eq_true_iff_forall_mem]
    intro e he
    have hforth := hN.capacity_nonneg e he
    have hback := hN.reverseCapacity_nonneg e he
    have hadd : r.checkedAdd e.capacity e.reverseCapacity = some (e.capacity + e.reverseCapacity) :=
      Register.checkedAdd_eq_some_iff.2 ⟨hfit _ (by omega) (hm.pair_le e he), rfl⟩
    rw [hadd]
    rfl
  -- the totals of both terminals are found alike
  have hsum : ∀ p : TerminalWeights → Int, (∀ t ∈ N.terminals, 0 ≤ p t) →
      (N.nodeSum fun _ t => p t) ≤ m → (r.checkedSum (N.terminals.toList.map p)).isSome = true := by
    intro p hp hle
    rw [N.nodeSum_eq_sum_map] at hle
    refine Option.isSome_iff_exists.2
      (Register.exists_checkedSum hfit (fun x hx => ?_) (Int.le_refl 0) (by omega))
    obtain ⟨t, ht, rfl⟩ := List.mem_map.1 hx
    exact hp t (by simpa using ht)
  have hterminals : terminalsFit r N = true := by
    rw [terminalsFit, Bool.or_eq_true]
    exact hm.total_le.imp (hsum TerminalWeights.source hN.source_nonneg)
      (hsum TerminalWeights.sink hN.sink_nonneg)
  rw [checkOverflow, hedges, hterminals]
  rfl

/-- **The check before the first search** says that the capacities leave room, in a register
that holds no number above `m`. -/
theorem fits_of_checkOverflow (hle : ∀ x, r.fits x = true → x ≤ m) (hm : 0 ≤ m)
    (hweight : ∀ t ∈ N.terminals, t.source ≤ m ∧ t.sink ≤ m)
    (h : checkOverflow r N = .ok ()) : N.Fits m := by
  have hsum : ∀ p : TerminalWeights → Int,
      (r.checkedSum (N.terminals.toList.map p)).isSome = true → (N.nodeSum fun _ t => p t) ≤ m := by
    intro p hp
    obtain ⟨y, hy⟩ := Option.isSome_iff_exists.1 hp
    obtain ⟨heq, hle'⟩ := Register.checkedSum_eq_some hle hm hy
    rw [N.nodeSum_eq_sum_map]
    omega
  unfold checkOverflow at h
  split at h
  · rename_i hc
    rw [Bool.and_eq_true, terminalsFit, Bool.or_eq_true, edgesFit,
      Array.all_eq_true_iff_forall_mem] at hc
    obtain ⟨hedges, hterminals⟩ := hc
    refine ⟨?_, fun t ht => (hweight t ht).1, fun t ht => (hweight t ht).2,
      hterminals.imp (hsum TerminalWeights.source) (hsum TerminalWeights.sink)⟩
    intro e he
    obtain ⟨z, hz⟩ := Option.isSome_iff_exists.1 (hedges e he)
    exact hle _ (Register.checkedAdd_eq_some_iff.1 hz).1
  · cases h

end Graph

end MinCut
