/-
# Reachability in a residual network

A node can be reached from the source along arcs with residual capacity, starting at a
node with a positive excess; and the sink can be reached from a node along such arcs,
ending at a node with a negative excess.
-/
import MinCut.Residual

namespace MinCut

namespace Residual

/-- An arc with residual capacity leads from `u` to `v`. -/
def Link (R : Residual) (u v : Nat) : Prop :=
  ∃ (as : List ArcRef) (a : ArcRef) (x : Int), R.arcs.around u = .ok as ∧ a ∈ as ∧
    R.arcs.head a = .ok v ∧ R.arcs.residual a = .ok x ∧ 0 < x

/-- The source can still send flow into the node. -/
inductive FromSource (R : Residual) : Nat → Prop where
  | start {u : Nat} {x : Int} : R.excess[u]? = some x → 0 < x → FromSource R u
  | link {u v : Nat} : FromSource R u → R.Link u v → FromSource R v

/-- The node can still send flow into the sink. -/
inductive ToSink (R : Residual) : Nat → Prop where
  | finish {u : Nat} {x : Int} : R.excess[u]? = some x → x < 0 → ToSink R u
  | link {u v : Nat} : R.Link u v → ToSink R v → ToSink R u

end Residual

end MinCut
