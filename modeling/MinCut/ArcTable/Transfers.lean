/-
# Transfers

A transfer pushes an amount along an arc.  It can be made if there is the arc, and if the amount is
neither negative nor more than the residual capacity that the arc has by then.

What a list of transfers pushes along an edge is the sum of the amounts along its forward arc, less
the sum of the amounts along its reverse arc.
-/
import MinCut.ArcTable.Build

namespace MinCut

/-- An amount to be pushed along an arc. -/
structure Transfer where
  arc : ArcRef
  amount : Int
  deriving DecidableEq

namespace Transfer

/-- What a list of transfers pushes along the arc `a`. -/
def total (ps : List Transfer) (a : ArcRef) : Int :=
  ps.foldr (fun p s => (if p.arc = a then p.amount else 0) + s) 0

/-- What a list of transfers pushes from the tail of the edge `k` to its head, less what it pushes
back. -/
def net (ps : List Transfer) (k : Nat) : Int := total ps ⟨k, .forward⟩ - total ps ⟨k, .reverse⟩

end Transfer

namespace ArcTable

/-- The table after transfers made one after the other. -/
def pushAll (r : Register) (t : ArcTable) (ps : List Transfer) : Except Fault ArcTable :=
  ps.foldlM (fun t p => t.pushFlow r p.arc p.amount) t

/-- **Each transfer can be made** when its turn comes. -/
def CanPush (r : Register) (t : ArcTable) : List Transfer → Prop
  | [] => True
  | p :: ps => (∃ c, t.residual p.arc = .ok c ∧ 0 ≤ p.amount ∧ p.amount ≤ c) ∧
    ∀ t', t.pushFlow r p.arc p.amount = .ok t' → t'.CanPush r ps

/-- Whether transfers can be made is found out by making them. -/
instance decidableCanPush (r : Register) :
    (t : ArcTable) → (ps : List Transfer) → Decidable (t.CanPush r ps)
  | _, [] => .isTrue trivial
  | t, p :: ps =>
    match hc : t.residual p.arc with
    | .error _ => .isFalse fun h => by
      obtain ⟨⟨c, hc', -⟩, -⟩ := h
      rw [hc] at hc'
      cases hc'
    | .ok c =>
      if hx : 0 ≤ p.amount ∧ p.amount ≤ c then
        match ht : t.pushFlow r p.arc p.amount with
        | .error _ => .isTrue ⟨⟨c, hc, hx⟩, fun t' ht' => by rw [ht] at ht'; cases ht'⟩
        | .ok t' =>
          have := decidableCanPush r t' ps
          decidable_of_iff (t'.CanPush r ps) ⟨fun h => ⟨⟨c, hc, hx⟩, fun t₁ h₁ => by
            rw [ht] at h₁
            rwa [← Except.ok.inj h₁]⟩, fun h => h.2 t' ht⟩
      else
        .isFalse fun h => by
          obtain ⟨⟨c', hc', hx'⟩, -⟩ := h
          rw [hc] at hc'
          rw [Except.ok.inj hc'] at hx
          exact hx hx'

end ArcTable

end MinCut
