/-
# Searches

A search for a maximum flow works on a residual network with a search forest over it.
Growing the forest and adopting orphans change the forest alone; only augmenting changes
the residual network.  Two counters tell how often either was done; they run on when the
search is repeated, while the forest is planted afresh each time.
-/
import MinCut.Forest.Basic

namespace MinCut

/-- A search for a maximum flow. -/
structure Search where
  residual : Residual
  forest : Forest
  /-- Whether a growing node takes over nodes of its own tree that lie deeper. -/
  reparent : Bool
  /-- How many paths were augmented so far. -/
  augmentations : Nat
  /-- How many orphans were settled so far. -/
  adoptions : Nat
  deriving DecidableEq

namespace Search

/-- The search of a network before it has begun. -/
def ofNetwork (r : Register) (N : Network) (reparent : Bool) : Except Fault Search := do
  let residual ← Residual.ofNetwork r N
  return ⟨residual, .unsearched N.numNodes, reparent, 0, 0⟩

/-- The search with a forest planted afresh: every node with an excess is a root. -/
def restart (s : Search) : Except Fault Search := do
  return { s with forest := ← Forest.ofExcess s.residual.excess }

/-- The side of the cut on which a node lies: that of the source for the nodes of the
source tree, and that of the sink for all others. -/
def segment (s : Search) (u : Nat) : Segment :=
  match s.forest.labels[u]? with
  | some (some l) => if l.isAttached then l.side else .sink
  | _ => .sink

/-- All that the source can still send into the nodes. -/
def supply (s : Search) : Nat := s.residual.excess.toList.foldr (fun x n => x.toNat + n) 0

end Search

end MinCut
