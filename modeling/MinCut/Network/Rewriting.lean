/-
# Other ways to write down a network

The same network can be written down in many ways: its edges can be listed in another order, an
edge can be named from its other end, it can be split into parallel edges, and the nodes can be
numbered otherwise.
-/
import Mathlib.Algebra.Ring.Int.Defs
import Mathlib.Logic.Equiv.Defs
import MinCut.Network

namespace MinCut

namespace Edge

/-- The edge, named from its other end. -/
def reversed (e : Edge) : Edge where
  tail := e.head
  head := e.tail
  flow := -e.flow
  capacity := e.reverseCapacity
  reverseCapacity := e.capacity

/-- The edge between the nodes with other numbers. -/
def renumber (π : Nat → Nat) (e : Edge) : Edge := { e with tail := π e.tail, head := π e.head }

/-- The edges `ps` are parallel to `e` and together carry as much as `e` in either direction. -/
structure Splits (e : Edge) (ps : List Edge) : Prop where
  tail_eq : ∀ p ∈ ps, p.tail = e.tail
  head_eq : ∀ p ∈ ps, p.head = e.head
  capacity_eq : (ps.map Edge.capacity).sum = e.capacity
  reverseCapacity_eq : (ps.map Edge.reverseCapacity).sum = e.reverseCapacity

end Edge

namespace Network

/-- The network with these edges and terminal weights. -/
def ofEdges (es : List Edge) (terminals : Array TerminalWeights) : Network :=
  ⟨es.toArray, terminals⟩

/-- **`Rewriting π N M`**: any number of changes in how the network `N` is written down, in any
order, make it `M`, where the node `v` of `N` has the number `π v`.

What is recorded of the flow along an edge is no part of the network: to split an edge into a
single one changes at most that. -/
inductive Rewriting : Equiv.Perm Nat → Network → Network → Prop where
  /-- The edges are listed in another order. -/
  | reorder {es fs : List Edge} (ts : Array TerminalWeights) : es.Perm fs →
      Rewriting (Equiv.refl Nat) (ofEdges es ts) (ofEdges fs ts)
  /-- One edge is named from its other end. -/
  | reverse (es fs : List Edge) (e : Edge) (ts : Array TerminalWeights) :
      Rewriting (Equiv.refl Nat) (ofEdges (es ++ e :: fs) ts) (ofEdges (es ++ e.reversed :: fs) ts)
  /-- One edge is split into parallel edges. -/
  | split (es fs : List Edge) {e : Edge} {ps : List Edge} (ts : Array TerminalWeights) :
      e.Splits ps →
      Rewriting (Equiv.refl Nat) (ofEdges (es ++ e :: fs) ts) (ofEdges (es ++ ps ++ fs) ts)
  /-- The nodes are numbered otherwise. -/
  | renumber (π : Equiv.Perm Nat) {N M : Network} : M.edges = N.edges.map (Edge.renumber π) →
      (∀ v : Nat, M.terminals[π v]? = N.terminals[v]?) → Rewriting π N M
  /-- A change is undone; parallel edges are merged in this way. -/
  | symm {π : Equiv.Perm Nat} {N M : Network} : Rewriting π N M → Rewriting π.symm M N
  /-- One change after the other. -/
  | trans {π ρ : Equiv.Perm Nat} {N M K : Network} : Rewriting π N M → Rewriting ρ M K →
      Rewriting (π.trans ρ) N K

end Network

end MinCut
