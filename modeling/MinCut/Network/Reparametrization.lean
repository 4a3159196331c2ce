/-
# Other weights with the same differences

What the source can send into a node and the node can send into the sink may go straight through
the node.  If both terminal weights of a node are raised or lowered by the same amount, that much
more or less goes straight through, and what is left of the weights is the same.
-/
import MinCut.Network

namespace MinCut

/-- The weights with `x` more towards either terminal. -/
def TerminalWeights.raise (t : TerminalWeights) (x : Int) : TerminalWeights :=
  ⟨t.source + x, t.sink + x⟩

namespace Network

/-- **`Reparametrizes c N M`** : the network `M` is `N`, but both terminal weights of every node `v`
are more by `c v`, which may be negative. -/
structure Reparametrizes (c : Nat → Int) (N M : Network) : Prop where
  edges_eq : M.edges = N.edges
  getElem?_terminals : ∀ v : Nat, M.terminals[v]? = N.terminals[v]?.map fun t => t.raise (c v)

/-- As many nodes have weights as before. -/
theorem Reparametrizes.numNodes_eq {c : Nat → Int} {N M : Network} (h : Reparametrizes c N M) :
    M.numNodes = N.numNodes := by
  have hnone : ∀ v : Nat, M.terminals.size ≤ v ↔ N.terminals.size ≤ v := by
    intro v
    rw [← Array.getElem?_eq_none_iff, ← Array.getElem?_eq_none_iff, h.getElem?_terminals,
      Option.map_eq_none_iff]
  exact Nat.le_antisymm ((hnone _).2 (Nat.le_refl _)) ((hnone _).1 (Nat.le_refl _))

end Network

end MinCut
