/-
# Whole instances

An instance lists the nodes, edges and terminal weights of a graph at once.  Weights that
are listed for the same node are added up.  The first edit that is refused decides.
-/
import MinCut.Graph.Query

namespace MinCut

/-- A graph listed as a whole. -/
structure Instance where
  numNodes : Nat
  /-- The edges, on which nothing flows yet. -/
  edges : List Edge
  /-- Terminal weights, each with the node to which they are added. -/
  terminals : List (Nat × TerminalWeights)
  deriving DecidableEq

namespace Graph

variable {r : Register}

/-- Adds a list of edges. -/
def addEdges (g : Graph r) (es : List Edge) : Except GraphError (Graph r) :=
  es.foldlM
    (fun g e => do
      let (_, g) ← g.addEdge e.tail e.head e.capacity e.reverseCapacity
      return g)
    g

/-- Adds a list of terminal weights. -/
def addTerminals (g : Graph r) (ts : List (Nat × TerminalWeights)) : Except GraphError (Graph r) :=
  ts.foldlM (fun g t => g.addTerminalWeights t.1 t.2.source t.2.sink) g

/-- The graph that an instance lists. -/
def ofInstance (r : Register) (config : Config) (I : Instance) : Except GraphError (Graph r) := do
  let (_, g) ← (empty r config).addNodes I.numNodes
  let g ← g.addEdges I.edges
  g.addTerminals I.terminals

/-- Solves the graph that an instance lists. -/
def solveInstance (r : Register) (config : Config) (I : Instance) :
    Except GraphError (Solved r) := do
  let g ← ofInstance r config I
  g.solve

end Graph

end MinCut
