/-
# Texts

The words for errors, and the written forms of graphs and edges: the name of the type and
then its fields in braces, on one line or one field to a line.
-/
import MinCut.Graph.Query

namespace MinCut

/-- The words for an error. -/
def GraphError.message : GraphError → String
  | negativeCapacity => "capacity must be non-negative"
  | unknownNode v => "node " ++ toString v ++ " does not exist"
  | overflow => "capacity arithmetic overflows the capacity type"
  | frozen => "the graph topology is frozen once solve() has run"
  | fault _ => "the search met a fault"

/-- The name of a status. -/
def Status.name : Status → String
  | notSolved => "NotSolved"
  | optimal => "Optimal"

/-- The name of a side. -/
def Segment.name : Segment → String
  | source => "Source"
  | sink => "Sink"

/-! ## Records -/

/-- A record on one line. -/
def inlineRecord (type : String) (fields : List (String × String)) : String :=
  type ++ " \x7b " ++ ", ".intercalate (fields.map fun f => f.1 ++ ": " ++ f.2) ++ " \x7d"

/-- A record with one field to a line. -/
def blockRecord (type : String) (fields : List (String × String)) : String :=
  type ++ " \x7b\n" ++ String.join (fields.map fun f => "    " ++ f.1 ++ ": " ++ f.2 ++ ",\n") ++
    "\x7d"

/-! ## Graphs and edges -/

namespace Graph

variable {r : Register}

/-- The fields of a graph that its written form shows. -/
def fields (g : Graph r) : List (String × String) :=
  [("num_nodes", toString g.numNodes), ("num_edges", toString g.numEdges),
    ("status", g.status.name)]

/-- The graph on one line. -/
def inlineText (g : Graph r) : String := inlineRecord "Graph" g.fields

/-- The graph with one field to a line. -/
def blockText (g : Graph r) : String := blockRecord "Graph" g.fields

/-- The edge with number `e` on one line, or that there is none. -/
def edgeText (g : Graph r) (e : Nat) : String :=
  match g.edge? e with
  | none => "None"
  | some edge =>
    "Some(" ++
      inlineRecord "Edge"
        [("from", toString edge.tail), ("to", toString edge.head),
          ("flow", toString edge.flow), ("capacity", toString edge.capacity),
          ("reverse_capacity", toString edge.reverseCapacity)] ++ ")"

end Graph

end MinCut
