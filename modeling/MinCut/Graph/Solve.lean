/-
# Solving a graph

Before the first search it is checked that no arithmetic step can leave the register.  The
residual capacities of a pair of arcs always add up to the two capacities of its edge, and
the flow never exceeds what either terminal can carry; so it is enough that the capacities
of each edge and the weights of at least one terminal can be summed.

A graph that was solved is searched again from the residual network that is left.
-/
import MinCut.Event
import MinCut.Graph.Basic

namespace MinCut

namespace Graph

variable {r : Register}

/-- Whether the two capacities of every edge can be summed. -/
def edgesFit (r : Register) (N : Network) : Bool :=
  N.edges.all fun e => (r.checkedAdd e.capacity e.reverseCapacity).isSome

/-- Whether the weights of the source, or those of the sink, can be summed. -/
def terminalsFit (r : Register) (N : Network) : Bool :=
  (r.checkedSum (N.terminals.toList.map TerminalWeights.source)).isSome ||
    (r.checkedSum (N.terminals.toList.map TerminalWeights.sink)).isSome

/-- Refuses a network whose capacities are too large for the register. -/
def checkOverflow (r : Register) (N : Network) : Except GraphError Unit :=
  if edgesFit r N && terminalsFit r N then .ok () else .error .overflow

/-- What becomes of a fault in a search. -/
def liftFault {α : Type} : Except Fault α → Except GraphError α
  | .ok x => .ok x
  | .error f => .error (.fault f)

theorem liftFault_eq_ok_iff {α : Type} {x : Except Fault α} {a : α} :
    liftFault x = .ok a ↔ x = .ok a := by
  cases x <;> simp [liftFault]

/-- The search to go on with: that of the last solve, or a new one. -/
def currentSearch (g : Graph r) : Except GraphError Search := do
  match g.search with
  | some s => return s
  | none =>
    checkOverflow r g.network
    liftFault (Search.ofNetwork r g.network g.config.reparent)

/-- A graph that was just solved. -/
structure Solved (r : Register) where
  /-- The value of the maximum flow. -/
  flow : Int
  /-- What the search told. -/
  events : List Event
  graph : Graph r
  deriving DecidableEq

/-- Finds a maximum flow and writes the net flows into the edges. -/
def solve (g : Graph r) : Except GraphError (Solved r) := do
  let s ← g.currentSearch
  let (s', as) ← liftFault (s.solve r)
  let edges ← liftFault (s'.residual.arcs.flowsOn r g.network.edges)
  return {
    flow := s'.residual.flow
    events := Event.ofSearch s as s'
    graph := { g with network := { g.network with edges }, search := some s' } }

end Graph

end MinCut
