/-
# Graphs

A graph is a network under construction: nodes and edges are added and terminal weights
are set until the graph is solved for the first time.  From then on the network is frozen
and every edit is refused.

An edit is checked before it is made, so a refused edit changes nothing.  What is wrong
first decides the error: that the network is frozen, then a node that does not exist (the
tail of a new edge before its head), then a negative capacity, then a sum of weights that
is too large.
-/
import MinCut.Search.Run

namespace MinCut

/-! ## Errors -/

/-- Why a graph refuses a call. -/
inductive GraphError where
  /-- A capacity is negative. -/
  | negativeCapacity
  /-- The node does not exist. -/
  | unknownNode (v : Nat)
  /-- A sum of capacities is too large for the register. -/
  | overflow
  /-- The network is frozen. -/
  | frozen
  /-- The search for a flow met a fault. -/
  | fault (f : Fault)
  deriving DecidableEq

/-! ## The type of graphs -/

/-- Settings of a graph that are fixed when it is made. -/
structure Config where
  /-- How many nodes to make room for; a graph may grow past it. -/
  expectedNodes : Nat
  /-- How many edges to make room for; a graph may grow past it. -/
  expectedEdges : Nat
  /-- Whether a growing node takes over nodes of its own tree that lie deeper. -/
  reparent : Bool
  deriving DecidableEq

/-- The settings with room for that many nodes and edges. -/
def Config.withCapacity (nodes edges : Nat) : Config := ⟨nodes, edges, true⟩

/-- The settings of a graph for which nothing is said. -/
def Config.standard : Config := .withCapacity 0 0

/-- Whether a graph has been solved. -/
inductive Status where
  | notSolved
  | optimal
  deriving DecidableEq

/-- A network under construction whose capacities are kept in registers of the kind `r`. -/
structure Graph (r : Register) where
  network : Network
  config : Config
  /-- The search that solved the graph, once it has been solved. -/
  search : Option Search
  deriving DecidableEq

namespace Graph

variable {r : Register}

/-- The graph without nodes. -/
def empty (r : Register) (config : Config) : Graph r where
  network :=
    { edges := Array.emptyWithCapacity config.expectedEdges
      terminals := Array.emptyWithCapacity config.expectedNodes }
  config := config
  search := none

/-- The number of nodes. -/
def numNodes (g : Graph r) : Nat := g.network.numNodes

/-- The number of edges. -/
def numEdges (g : Graph r) : Nat := g.network.numEdges

/-- A graph is solved once a search has succeeded on it. -/
def status (g : Graph r) : Status :=
  match g.search with
  | some _ => .optimal
  | none => .notSolved

/-! ## Checks -/

/-- Refuses if the network is frozen. -/
def checkEditable (g : Graph r) : Except GraphError Unit :=
  match g.search with
  | some _ => .error .frozen
  | none => .ok ()

/-- Refuses a node that does not exist. -/
def checkNode (g : Graph r) (v : Nat) : Except GraphError Unit :=
  if v < g.numNodes then .ok () else .error (.unknownNode v)

/-- Refuses two capacities if one of them is negative. -/
def checkCapacities (x y : Int) : Except GraphError Unit :=
  if x < 0 ∨ y < 0 then .error .negativeCapacity else .ok ()

/-- The sum of two capacities, refused if it is too large for the register. -/
def addCapacities (r : Register) (x y : Int) : Except GraphError Int :=
  match r.checkedAdd x y with
  | some z => .ok z
  | none => .error .overflow

/-! ## Edits -/

/-- The graph with other terminal weights. -/
def withTerminals (g : Graph r) (terminals : Array TerminalWeights) : Graph r :=
  { g with network := { g.network with terminals } }

/-- Adds `n` nodes that are bound to no terminal, and names them. -/
def addNodes (g : Graph r) (n : Nat) : Except GraphError (List Nat × Graph r) := do
  g.checkEditable
  return (List.range' g.numNodes n,
    g.withTerminals (g.network.terminals ++ Array.replicate n .zero))

/-- Adds a node that is bound to no terminal, and names it. -/
def addNode (g : Graph r) : Except GraphError (Nat × Graph r) := do
  g.checkEditable
  return (g.numNodes, g.withTerminals (g.network.terminals.push .zero))

/-- Adds an edge that carries up to `capacity` from `u` to `v` and up to `reverseCapacity`
from `v` to `u`, and tells its number. -/
def addEdge (g : Graph r) (u v : Nat) (capacity reverseCapacity : Int) :
    Except GraphError (Nat × Graph r) := do
  g.checkEditable
  g.checkNode u
  g.checkNode v
  checkCapacities capacity reverseCapacity
  let edges := g.network.edges.push (.idle u v capacity reverseCapacity)
  return (g.numEdges, { g with network := { g.network with edges } })

/-- Sets the terminal weights of the node `v`. -/
def setTerminalWeights (g : Graph r) (v : Nat) (source sink : Int) :
    Except GraphError (Graph r) := do
  g.checkEditable
  g.checkNode v
  checkCapacities source sink
  return g.withTerminals (g.network.terminals.setIfInBounds v ⟨source, sink⟩)

/-- The terminal weights of the node `v`. -/
def terminalWeights (g : Graph r) (v : Nat) : TerminalWeights :=
  g.network.terminals[v]?.getD .zero

/-- Adds to both terminal weights of the node `v`, or to neither. -/
def addTerminalWeights (g : Graph r) (v : Nat) (source sink : Int) :
    Except GraphError (Graph r) := do
  g.checkEditable
  g.checkNode v
  checkCapacities source sink
  let source ← addCapacities r (g.terminalWeights v).source source
  let sink ← addCapacities r (g.terminalWeights v).sink sink
  return g.withTerminals (g.network.terminals.setIfInBounds v ⟨source, sink⟩)

/-! ## Small facts -/

@[simp] theorem numNodes_empty (r : Register) (config : Config) :
    (empty r config).numNodes = 0 := rfl

@[simp] theorem numEdges_empty (r : Register) (config : Config) :
    (empty r config).numEdges = 0 := rfl

/-- A graph can be edited exactly as long as it is not solved. -/
theorem checkEditable_eq_ok_iff (g : Graph r) :
    g.checkEditable = .ok () ↔ g.status = .notSolved := by
  unfold checkEditable status
  cases g.search <;> simp

end Graph

end MinCut
