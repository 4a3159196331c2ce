/-
# Solves in different registers

The check before the first search makes sure that no solve ever leaves the symmetric range: a
solve runs in registers that wrap around as it runs in exact ones, turn by turn, and it also
runs to its end in registers that refuse every number whose negative has no room.  One of the
two terminal totals may exceed the range, since the flow is bounded by the other one.

Key facts:
* `Balances.bounded` : all that a balanced residual network keeps is within the range;
* `solves_alike` : a solve does the same in all registers compared.
-/
import MinCut.Proofs.Sessions

namespace MinCut

namespace Residual

variable {R : Residual} {N : Network} {m : Int}

/-- All that the residual network keeps lies in the symmetric range up to `m`. -/
structure Bounded (R : Residual) (m : Int) : Prop where
  pair : ∀ p ∈ R.arcs.pairs, 0 ≤ p.forward ∧ p.forward ≤ m ∧ 0 ≤ p.reverse ∧ p.reverse ≤ m
  excess : ∀ x ∈ R.excess, -m ≤ x ∧ x ≤ m
  flow : 0 ≤ R.flow ∧ R.flow ≤ m

/-- **What a balanced residual network keeps** is bounded by what the capacities leave room
for. -/
theorem Balances.bounded (hN : N.WellFormed) (hm : N.Fits m) (h : R.Balances N) :
    R.Bounded m where
  pair p hp := by
    obtain ⟨k, hk, rfl⟩ := Array.mem_iff_getElem.1 hp
    have hget : R.arcs.pairs[k]? = some R.arcs.pairs[k] := Array.getElem?_eq_getElem hk
    have hlt : k < N.edges.size := Nat.lt_of_lt_of_eq hk h.arcs.size_eq
    have he : N.edges[k]? = some N.edges[k] := Array.getElem?_eq_getElem hlt
    have hroom := hm.pair_le _ (Array.mem_of_getElem? he)
    have hsum := h.arcs.sum_eq k _ he
    have hforward := h.arcs.nonneg ⟨k, .forward⟩
    have hreverse := h.arcs.nonneg ⟨k, .reverse⟩
    rw [ArcTable.capacity_of_getElem? hget] at hsum hforward hreverse
    rw [ArcTable.capacity_of_getElem? hget] at hsum
    simp only [ArcPair.residual] at hsum hforward hreverse
    omega
  excess x hx := by
    obtain ⟨v, hv, rfl⟩ := Array.mem_iff_getElem.1 hx
    have hroom := h.excess_le hN hm hv
    simpa [excessAt, hv] using hroom
  flow := ⟨h.flow_nonneg hN, h.flow_le hm⟩

end Residual

namespace Search

/-- No augmentation pushes more than all of them together. -/
theorem Accounts.bottleneck_le {N : Network} {s s' : Search} {as : List Augmentation} {m : Int}
    (h : s.Accounts N s' as) (hs : 0 ≤ s.residual.flow) (hs' : s'.residual.flow ≤ m)
    {a : Augmentation} (ha : a ∈ as) : a.bottleneck ≤ m := by
  have hpos : ∀ x ∈ as.map Augmentation.bottleneck, 0 ≤ x := by
    intro x hx
    obtain ⟨b, hb, rfl⟩ := List.mem_map.1 hx
    exact Int.le_of_lt (h.bottleneck_pos b hb)
  have hle := List.single_le_sum hpos a.bottleneck (List.mem_map_of_mem ha)
  have hflow := h.flow_eq
  omega

end Search

namespace Graph

variable {r : Register} {g : Graph r} {bits : Nat}

/-- **A solve that does the same in all registers compared**: it begins with the search `s₀`,
plants the forest of `s₁`, takes the same turn at every head of the loop that is reached in one
of the registers, augments `as`, ends with the search `s` and records the edges `es`.  One of
the registers refuses every number outside the symmetric range. -/
structure SolvesAlike (g : Graph r) (bits : Nat) (s₀ s₁ s : Search) (as : List Augmentation)
    (es : Array Edge) : Prop where
  current : ∀ r' ∈ Register.compared bits, (g.inRegister r').currentSearch = .ok s₀
  planted : s₀.restart = .ok s₁
  turn : ∀ x, (∃ r' ∈ Register.compared bits, Run.Reaches r' ⟨s₁, none⟩ x) →
    x.search.residual.Bounded (Register.limit bits) ∧
      ∃ t, ∀ r' ∈ Register.compared bits, x.turn r' = .ok t
  search : ∀ r' ∈ Register.compared bits, s₀.solve r' = .ok (s, as)
  bottleneck : ∀ a ∈ as, 0 < a.bottleneck ∧ a.bottleneck ≤ Register.limit bits
  edges : ∀ r' ∈ Register.compared bits, s.residual.arcs.flowsOn r' g.network.edges = .ok es
  solve : ∀ r' ∈ Register.compared bits,
    (g.inRegister r').solve = .ok ((g.solvedWith s₀ s as es).inRegister r')

/-- **The check rules out every overflow**: if it passes, a solve does the same in registers
that wrap around as in exact ones, and it never leaves the symmetric range. -/
theorem solves_alike (hr : r.IsMachine bits) (hg : g.Built)
    (hcheck : checkOverflow r g.network = .ok ()) :
    ∃ s₀ s₁ s as es, g.SolvesAlike bits s₀ s₁ s as es := by
  have hv := hg.valid hr
  have hN := hv.wellFormed
  have hm := hv.fits_of_check hr fun _ => hcheck
  have hkeeps : ∀ r' ∈ Register.compared bits, r'.Keeps (Register.limit bits) :=
    fun r' hr' => Register.keeps_of_mem_compared hr.1 hr'
  have hfits : ∀ r' ∈ Register.compared bits, ∀ x, 0 ≤ x → x ≤ Register.limit bits →
      r'.fits x = true := fun r' hr' x => Register.fits_of_mem_compared hr'
  obtain ⟨s₀, s, as, es, hs, hok⟩ := exists_solves hv hm
  obtain ⟨f, hf, hsound, -⟩ := Search.restart_spec hs.balances
  -- what one register makes of a turn, all registers with room do
  refine ⟨s₀, _, s, as, es, ⟨fun r' hr' => (hok r' (hkeeps r' hr') (hfits r' hr')).1, hf, ?_,
    fun r' hr' => hs.solve_eq r' (hkeeps r' hr'), ?_,
    fun r' hr' => hs.flowsOn_eq r' (hkeeps r' hr'),
    fun r' hr' => (hok r' (hkeeps r' hr') (hfits r' hr')).2⟩⟩
  · intro x hx
    obtain ⟨r', hr', hx⟩ := hx
    have hx' := hx.sound (hkeeps r' hr') hN hm hsound
    refine ⟨hx'.balances.bounded hN hm, ?_⟩
    rcases Run.turn_spec hN hm hx' with ⟨t, ht, -, -⟩ | ⟨y, a, hy, -⟩
    · exact ⟨_, fun r'' hr'' => ht r'' (hkeeps r'' hr'')⟩
    · exact ⟨_, fun r'' hr'' => hy r'' (hkeeps r'' hr'')⟩
  · intro a ha
    exact ⟨hs.accounts.bottleneck_pos a ha, hs.accounts.bottleneck_le
      (hs.balances.flow_nonneg hN) (hs.complete.balances.flow_le hm) ha⟩

/-- A source that feeds two nodes, which the sink could drain of more than there is room for. -/
def lopsided (r : Register) : Graph r :=
  (session r .standard
    [.edit (.addNodes 3), .edit (.setTerminalWeights 0 120 0), .edit (.setTerminalWeights 1 0 100),
      .edit (.setTerminalWeights 2 0 100), .edit (.addEdge 0 1 60 7), .edit (.addEdge 0 2 50 0)]).2

theorem solves_alike_lopsided :
    (Register.limit 8 < (lopsided (.wrapping 8)).network.nodeSum fun _ t => t.sink) ∧
      ∃ s₀ s₁ s as es, (lopsided (.wrapping 8)).SolvesAlike 8 s₀ s₁ s as es ∧
        s.residual.flow = 110 := by
  have hsolve : (lopsided (.wrapping 8)).solve.map Solved.flow = .ok 110 := by decide +kernel
  obtain ⟨s₀, s₁, s, as, es, h⟩ :=
    solves_alike (g := lopsided (.wrapping 8)) ⟨by decide, Or.inr rfl⟩
      ⟨_, _, by decide, rfl⟩ (by decide +kernel)
  refine ⟨by decide +kernel, s₀, s₁, s, as, es, h, ?_⟩
  have hwrap := h.solve (.wrapping 8) (by decide)
  have hsame : (lopsided (.wrapping 8)).solve = _ := hwrap
  rw [hsame] at hsolve
  exact Except.ok.inj hsolve

end Graph

end MinCut
