/-
# Heads of all solves

A search of a network may be solved any number of times, and each solve passes the head of its
loop any number of times.  If the network passes the check before its first search, the
residual network is balanced between the solves, and the invariant of the loop holds at every
head.

Key facts:
* `Admissible.fits` : the capacities of a network that passes the check leave room;
* `SearchOf.balances` : the residual network between the solves, by induction on the solves;
* `AtHead.sound` : the invariant at every head of every solve;
* `atHead_of_headAfter` : the heads of the first solve, by the number of turns before them.
-/
import MinCut.Proofs.OverflowCheck
import MinCut.Proofs.Turns

namespace MinCut

/-! ## Admissible networks -/

/-- **The networks that are searched**: well-formed, with weights that are values of the register,
and accepted by the check before the first search. -/
structure Network.Admissible (r : Register) (N : Network) : Prop extends N.WellFormed where
  source_fits : ∀ t ∈ N.terminals, r.fits t.source = true
  sink_fits : ∀ t ∈ N.terminals, r.fits t.sink = true
  check_eq : Graph.checkOverflow r N = .ok ()

variable {r : Register} {N : Network} {m : Int} {bits : Nat} {s : Search} {x : Run}

/-- The capacities of an admissible network leave room. -/
theorem Network.Admissible.fits (hr : r.IsMachine bits) (h : N.Admissible r) :
    N.Fits (Register.limit bits) :=
  Graph.fits_of_checkOverflow (fun _ => hr.le_limit) (Register.limit_nonneg bits)
    (fun t ht => ⟨hr.le_limit (h.source_fits t ht), hr.le_limit (h.sink_fits t ht)⟩) h.check_eq

/-! ## Searches and heads -/

/-- The search is a new one of the network, or what a number of solves have made of one. -/
inductive SearchOf (r : Register) (N : Network) : Search → Prop where
  | new {reparent : Bool} {s : Search} : Search.ofNetwork r N reparent = .ok s → SearchOf r N s
  | solved {s s' : Search} {as : List Augmentation} :
    SearchOf r N s → s.solve r = .ok (s', as) → SearchOf r N s'

/-- The state stands at the head of the loop in one of the solves of the network. -/
def AtHead (r : Register) (N : Network) (x : Run) : Prop :=
  ∃ s s', SearchOf r N s ∧ s.restart = .ok s' ∧ Run.Reaches r ⟨s', none⟩ x

/-- **Between the solves** the residual network is balanced. -/
theorem SearchOf.balances (hr : r.Keeps m) (hN : N.WellFormed) (hm : N.Fits m)
    (h : SearchOf r N s) : s.residual.Balances N := by
  induction h with
  | new hs =>
    obtain ⟨R, hR, hb, -⟩ := Search.ofNetwork_spec hN hm
    rw [hR r hr] at hs
    obtain rfl := Except.ok.inj hs
    exact hb
  | solved _ hs ih =>
    -- whatever the trees of the solve before, a solve only needs the balance
    obtain ⟨s', as, hok, hcomplete, -⟩ := Search.solve_spec hN hm ih
    rw [hok r hr] at hs
    obtain ⟨rfl, -⟩ := Prod.mk.inj (Except.ok.inj hs)
    exact hcomplete.balances

/-- A search over the integers is one in every register with room. -/
theorem SearchOf.of_exact (hr : r.Keeps m) (hN : N.WellFormed) (hm : N.Fits m)
    (h : SearchOf .exact N s) : SearchOf r N s := by
  induction h with
  | new hs =>
    obtain ⟨R, hR, -⟩ := Search.ofNetwork_spec hN hm
    rw [hR .exact (Register.keeps_exact m), ← hR r hr] at hs
    exact .new hs
  | solved h hs ih =>
    obtain ⟨s', as, hok, -⟩ :=
      Search.solve_spec hN hm (h.balances (Register.keeps_exact m) hN hm)
    rw [hok .exact (Register.keeps_exact m), ← hok r hr] at hs
    exact ih.solved hs

/-- **At every head of every solve** the invariant of the loop holds. -/
theorem AtHead.sound (hr : r.Keeps m) (hN : N.WellFormed) (hm : N.Fits m) (h : AtHead r N x) :
    x.Sound N := by
  obtain ⟨s, s', hs, hrestart, hreach⟩ := h
  obtain ⟨f, hf, hsound, -⟩ := Search.restart_spec (hs.balances hr hN hm)
  rw [hf] at hrestart
  obtain rfl := Except.ok.inj hrestart
  exact hreach.sound hr hN hm hsound

/-- One turn leads from a head to a head. -/
theorem AtHead.next {y : Run} {o : Option Augmentation} (hx : AtHead r N x)
    (ht : x.turn r = .ok (.next y o)) : AtHead r N y := by
  obtain ⟨s, s', hs, hrestart, hreach⟩ := hx
  exact ⟨s, s', hs, hrestart, hreach.step ht⟩

/-! ## Heads by number -/

/-- The state at the head of the loop after `n` turns, if the loop goes on for that long. -/
def Run.after (r : Register) (x : Run) : Nat → Except Fault (Option Run)
  | 0 => .ok (some x)
  | n + 1 => do
    match ← x.turn r with
    | .finished _ => return none
    | .next y _ => y.after r n

/-- The state at the head of the loop after `n` turns of the first solve of a network. -/
def headAfter (r : Register) (N : Network) (reparent : Bool) (n : Nat) :
    Except Fault (Option Run) := do
  let s ← Search.ofNetwork r N reparent
  let s' ← s.restart
  Run.after r ⟨s', none⟩ n

/-- What is reached from the state after one turn is reached from the state before it. -/
theorem Run.Reaches.head {y z : Run} {a : Option Augmentation} (ht : x.turn r = .ok (.next y a))
    (h : y.Reaches r z) : x.Reaches r z := by
  induction h with
  | refl => exact .step .refl ht
  | step _ ht' ih => exact .step ih ht'

theorem Run.reaches_of_after {y : Run} {n : Nat} (h : x.after r n = .ok (some y)) :
    x.Reaches r y := by
  induction n generalizing x with
  | zero =>
    obtain rfl : x = y := Option.some.inj (Except.ok.inj h)
    exact .refl
  | succ n ih =>
    obtain ⟨t, ht, hrest⟩ := bind_eq_ok_iff.1 h
    cases t with
    | finished s => cases hrest
    | next z a => exact (ih hrest).head ht

/-- A state after some turns of the first solve stands at a head. -/
theorem atHead_of_headAfter {reparent : Bool} {n : Nat}
    (h : headAfter r N reparent n = .ok (some x)) : AtHead r N x := by
  obtain ⟨s, hs, h⟩ := bind_eq_ok_iff.1 h
  obtain ⟨s', hs', h⟩ := bind_eq_ok_iff.1 h
  exact ⟨s, s', .new hs, hs', Run.reaches_of_after h⟩

/-- What the state after some turns evaluates to is found at a head. -/
theorem exists_atHead_of_headAfter {α : Type} {p : Run → α} {b : α} (reparent : Bool) (n : Nat)
    (h : (headAfter r N reparent n).map (Option.map p) = .ok (some b)) :
    ∃ x, AtHead r N x ∧ p x = b := by
  obtain ⟨o, hx, ho⟩ := map_eq_ok_iff.1 h
  obtain ⟨x, rfl, hp⟩ := Option.map_eq_some_iff.1 ho
  exact ⟨x, atHead_of_headAfter hx, hp⟩

end MinCut
