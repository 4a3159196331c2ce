/-
# Registers

Capacities and flows are integers, and each arithmetic step ends in a register.  An exact
register keeps every integer.  A wrapping register of `bits` bits keeps the lowest `bits`
bits and reads them as a signed number.  A bounded register keeps the values between its
two bounds and refuses every other one.

Two bounded registers of `bits` bits matter.  The signed one holds every signed number of
that size.  The symmetric one leaves out the lowest of them, so that it holds the negative
of all that it holds; a computation that runs to its end in symmetric registers has met
no value outside `-limit bits … limit bits` on its way.

Main facts: `store_bounded_eq_ok_iff`, and `store_eq_of_abs_le`, which says that all
four registers agree on the symmetric range.
-/
import MinCut.Fault

namespace MinCut

/-- How the value of an arithmetic step is kept. -/
inductive Register where
  /-- Every integer is kept as it is. -/
  | exact
  /-- The lowest `bits` bits are kept and read as a signed number. -/
  | wrapping (bits : Nat)
  /-- A value from `lo` to `hi` is kept, and no other one. -/
  | bounded (lo hi : Int)
  deriving DecidableEq

namespace Register

/-! ## Signed numbers -/

/-- How many numbers a register of `bits` bits tells apart. -/
def numValues (bits : Nat) : Nat := 1 <<< bits

/-- The largest signed number of `bits` bits. -/
def limit (bits : Nat) : Int := numValues (bits - 1) - 1

/-- The register that holds the signed numbers of `bits` bits. -/
def signed (bits : Nat) : Register := .bounded (-limit bits - 1) (limit bits)

/-- The register that holds a signed number of `bits` bits if its negative is one too. -/
def symmetric (bits : Nat) : Register := .bounded (-limit bits) (limit bits)

/-! ## Keeping a value -/

/-- What a register holds once a value was put into it. -/
def store : Register → Int → Except Fault Int
  | exact, x => .ok x
  | wrapping bits, x => .ok (x.bmod (numValues bits))
  | bounded lo hi, x => if lo ≤ x ∧ x ≤ hi then .ok x else .error .overflow

/-- Whether a value is one that the register can hold unchanged. -/
def fits : Register → Int → Bool
  | exact, _ => true
  | wrapping bits, x => -limit bits - 1 ≤ x && x ≤ limit bits
  | bounded lo hi, x => lo ≤ x && x ≤ hi

/-- The sum of two values, if the register can hold it unchanged. -/
def checkedAdd (r : Register) (a b : Int) : Option Int :=
  if r.fits (a + b) then some (a + b) else none

/-- The sum of a list of values, if the register can hold all its partial sums. -/
def checkedSum (r : Register) (xs : List Int) : Option Int := xs.foldlM r.checkedAdd 0

/-! ## Agreement of the registers -/

@[simp] theorem store_exact (x : Int) : exact.store x = .ok x := rfl

theorem store_wrapping (bits : Nat) (x : Int) :
    (wrapping bits).store x = .ok (x.bmod (numValues bits)) := rfl

theorem store_bounded (lo hi x : Int) : (bounded lo hi).store x =
    if lo ≤ x ∧ x ≤ hi then .ok x else .error .overflow := rfl

/-- A bounded register keeps exactly the values between its bounds. -/
theorem store_bounded_eq_ok_iff {lo hi x y : Int} :
    (bounded lo hi).store x = .ok y ↔ (lo ≤ x ∧ x ≤ hi) ∧ y = x := by
  rw [store_bounded]
  by_cases h : lo ≤ x ∧ x ≤ hi <;> simp [h, eq_comm]

/-- What a bounded register keeps is what fits it. -/
theorem fits_bounded_iff {lo hi x : Int} : (bounded lo hi).fits x = true ↔ lo ≤ x ∧ x ≤ hi := by
  simp [fits]

theorem numValues_succ (bits : Nat) : numValues (bits + 1) = 2 * numValues bits := by
  rw [numValues, Nat.shiftLeft_succ]
  rfl

/-- Of the values that a register of `bits` bits tells apart, one more is negative than not. -/
theorem two_mul_limit {bits : Nat} (h : 0 < bits) : 2 * limit bits + 2 = numValues bits := by
  obtain ⟨k, rfl⟩ : ∃ k, bits = k + 1 := ⟨bits - 1, by omega⟩
  rw [limit, Nat.add_sub_cancel, numValues_succ]
  omega

/-- On the symmetric range, every register keeps a value as it is. -/
theorem store_eq_of_abs_le {bits : Nat} (h : 0 < bits) {x : Int}
    (lo : -limit bits ≤ x) (hi : x ≤ limit bits) :
    exact.store x = .ok x ∧ (wrapping bits).store x = .ok x ∧
      (signed bits).store x = .ok x ∧ (symmetric bits).store x = .ok x := by
  have hm := two_mul_limit h
  refine ⟨rfl, ?_, store_bounded_eq_ok_iff.2 ⟨⟨by omega, hi⟩, rfl⟩,
    store_bounded_eq_ok_iff.2 ⟨⟨lo, hi⟩, rfl⟩⟩
  rw [store_wrapping, Int.bmod_eq_of_le_mul_two (by omega) (by omega)]

/-- The checked sum of two values is their sum or nothing. -/
theorem checkedAdd_eq_some_iff {r : Register} {a b c : Int} :
    r.checkedAdd a b = some c ↔ r.fits (a + b) = true ∧ c = a + b := by
  unfold checkedAdd
  by_cases h : r.fits (a + b) = true <;> simp [h, eq_comm]

end Register

end MinCut
