/-
# Adding to terminal weights

The weights of a node can be given bit by bit: each addition names a node and says how much more it
is bound to the source and to the sink.  What a list of additions comes to is told by their sums,
node by node.
-/
import MinCut.Graph.Calls

namespace MinCut

/-- Two terminal weights that grow by two others. -/
def TerminalWeights.plus (w x : TerminalWeights) : TerminalWeights :=
  ⟨w.source + x.source, w.sink + x.sink⟩

/-- Whether no weight is negative. -/
def TerminalWeights.IsNonneg (w : TerminalWeights) : Prop := 0 ≤ w.source ∧ 0 ≤ w.sink

/-- Whether both weights are values of the register. -/
def TerminalWeights.Fits (r : Register) (w : TerminalWeights) : Prop :=
  r.fits w.source = true ∧ r.fits w.sink = true

instance (w : TerminalWeights) : Decidable w.IsNonneg :=
  inferInstanceAs (Decidable (0 ≤ w.source ∧ 0 ≤ w.sink))

instance (r : Register) (w : TerminalWeights) : Decidable (w.Fits r) :=
  inferInstanceAs (Decidable (r.fits w.source = true ∧ r.fits w.sink = true))

/-- Weights to be added to those of a node. -/
structure Increment where
  node : Nat
  weights : TerminalWeights
  deriving DecidableEq

namespace Increment

/-- The call that makes the addition. -/
def call (d : Increment) : Graph.Call :=
  .edit (.addTerminalWeights d.node d.weights.source d.weights.sink)

/-- What a list of additions adds to the weights of the node `v`. -/
def total (ds : List Increment) (v : Nat) : TerminalWeights :=
  ds.foldr (fun d w => if d.node = v then d.weights.plus w else w) .zero

end Increment

namespace Graph

variable {r : Register}

/-- What the weights of the node `v` come to with a list of additions. -/
def totalWeights (g : Graph r) (ds : List Increment) (v : Nat) : TerminalWeights :=
  (g.terminalWeights v).plus (Increment.total ds v)

/-- **There is room for the additions** if the two sums of every node are values of the register. -/
def HasRoom (g : Graph r) (ds : List Increment) : Prop :=
  ∀ v, v < g.numNodes → (g.totalWeights ds v).Fits r

instance (g : Graph r) (ds : List Increment) : Decidable (g.HasRoom ds) :=
  inferInstanceAs (Decidable (∀ v, v < g.numNodes → (g.totalWeights ds v).Fits r))

/-- The call that sets the weights of the node `v` to its two sums. -/
def setTotal (g : Graph r) (ds : List Increment) (v : Nat) : Call :=
  .edit (.setTerminalWeights v (g.totalWeights ds v).source (g.totalWeights ds v).sink)

/-- Whether every call was carried out, with nothing to tell and nothing heard. -/
def AllDone (as : List Answer) : Prop := ∀ a ∈ as, a = ⟨.done, []⟩

/-- The graph `g'` is `g` after the additions: the weights have grown by the sums, and all else
is as it was. -/
structure Accumulates (g g' : Graph r) (ds : List Increment) : Prop where
  weights : ∀ v < g.numNodes, g'.terminalWeights v = g.totalWeights ds v
  others : ∀ v < g.numNodes, (∀ d ∈ ds, d.node ≠ v) → g'.terminalWeights v = g.terminalWeights v
  numNodes_eq : g'.numNodes = g.numNodes
  edges_eq : g'.network.edges = g.network.edges
  config_eq : g'.config = g.config
  search_eq : g'.search = g.search

end Graph

end MinCut
