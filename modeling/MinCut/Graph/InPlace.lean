/-
# Graphs in place

A program keeps a graph in variables that it writes one after the other.  It leaves a call as soon
as a check fails, and whatever it has written by then stays written.  The numbers of nodes and edges
and the status stand in variables of their own, and the observer is told things on the way.

`Live.call` makes the calls of `Graph.call` in this manner: the checks in the order in which a
program makes them, and each write where it stands between them.
-/
import MinCut.Graph.Calls

namespace MinCut

/-- The variables of a graph, and all that an observer was told. -/
structure Live where
  numNodes : Nat
  numEdges : Nat
  edges : Array Edge
  terminals : Array TerminalWeights
  config : Config
  search : Option Search
  status : Status
  told : List Event
  deriving DecidableEq

namespace Live

/-- Steps of a program on the variables.  A step that fails keeps what was written before. -/
abbrev Step (α : Type) := ExceptT GraphError (StateM Live) α

/-- What the steps come to, and the variables after them. -/
def exec {α : Type} (step : Step α) (l : Live) : Except GraphError α × Live := step.run.run l

/-- The variables of a graph without nodes. -/
def empty (config : Config) : Live where
  numNodes := 0
  numEdges := 0
  edges := Array.emptyWithCapacity config.expectedEdges
  terminals := Array.emptyWithCapacity config.expectedNodes
  config := config
  search := none
  status := .notSolved
  told := []

/-- Tells the observer of an event. -/
def tell (e : Event) : Step Unit := modify fun l => { l with told := l.told ++ [e] }

/-- Goes on with the value of a computation, or fails as it does. -/
def ofExcept {α : Type} : Except GraphError α → Step α
  | .ok x => return x
  | .error e => throw e

/-! ## Checks -/

/-- Fails if the network is frozen, and tells of it. -/
def checkEditable : Step Unit := do
  if (← get).search.isSome then
    tell .rejectedEdit
    throw .frozen

/-- Fails if the node does not exist. -/
def checkNode (v : Nat) : Step Unit := do
  if (← get).numNodes ≤ v then
    throw (.unknownNode v)

/-- Fails if one of two capacities is negative. -/
def checkCapacities (x y : Int) : Step Unit := do
  if x < 0 ∨ y < 0 then
    throw .negativeCapacity

/-! ## Edits -/

/-- Adds a node. -/
def addNode : Step Nat := do
  checkEditable
  modify fun l => { l with terminals := l.terminals.push .zero }
  modify fun l => { l with numNodes := l.numNodes + 1 }
  return (← get).numNodes - 1

/-- Adds `n` nodes. -/
def addNodes (n : Nat) : Step (List Nat) := do
  checkEditable
  modify fun l => { l with terminals := l.terminals ++ Array.replicate n .zero }
  modify fun l => { l with numNodes := l.numNodes + n }
  return List.range' ((← get).numNodes - n) n

/-- Adds an edge. -/
def addEdge (u v : Nat) (capacity reverseCapacity : Int) : Step Nat := do
  checkEditable
  checkNode u
  checkNode v
  checkCapacities capacity reverseCapacity
  modify fun l => { l with edges := l.edges.push (.idle u v capacity reverseCapacity) }
  modify fun l => { l with numEdges := l.numEdges + 1 }
  return (← get).numEdges - 1

/-- Sets the terminal weights of a node. -/
def setTerminalWeights (v : Nat) (source sink : Int) : Step Unit := do
  checkEditable
  checkNode v
  checkCapacities source sink
  modify fun l => { l with terminals := l.terminals.setIfInBounds v ⟨source, sink⟩ }

/-- Adds to the terminal weights of a node. -/
def addTerminalWeights (r : Register) (v : Nat) (source sink : Int) : Step Unit := do
  checkEditable
  checkNode v
  checkCapacities source sink
  let w ← ofExcept (Graph.liftFault (fetch (← get).terminals v))
  let source ← ofExcept (Graph.addCapacities r w.source source)
  let sink ← ofExcept (Graph.addCapacities r w.sink sink)
  modify fun l => { l with terminals := l.terminals.setIfInBounds v ⟨source, sink⟩ }

/-- Makes a change. -/
def edit (r : Register) : Graph.Edit → Step Graph.Reply
  | .addNode => return .number (← addNode)
  | .addNodes n => return .nodes (← addNodes n)
  | .addEdge u v capacity reverseCapacity =>
    return .number (← addEdge u v capacity reverseCapacity)
  | .setTerminalWeights v source sink => do
    setTerminalWeights v source sink
    return .done
  | .addTerminalWeights v source sink => do
    addTerminalWeights r v source sink
    return .done

/-! ## Solves -/

/-- The search to go on with, which is kept from now on if it is a new one. -/
def prepare (r : Register) : Step Search := do
  let l ← get
  match l.search with
  | some s => return s
  | none =>
    ofExcept (Graph.checkOverflow r ⟨l.edges, l.terminals⟩)
    let s ← ofExcept (Graph.liftFault (Search.ofNetwork r ⟨l.edges, l.terminals⟩ l.config.reparent))
    modify fun l => { l with search := some s }
    return s

/-- Finds a maximum flow and writes the net flows into the edges. -/
def solve (r : Register) : Step Int := do
  let s ← prepare r
  tell (.solving s.residual.arcs.numNodes s.residual.arcs.numPairs)
  let (s', as) ← ofExcept (Graph.liftFault (s.solve r))
  as.forM fun a => tell (.augmented a)
  tell (.found s'.residual.flow s'.augmentations s'.adoptions)
  modify fun l => { l with search := some s' }
  let edges ← ofExcept (Graph.liftFault (s'.residual.arcs.flowsOn r (← get).edges))
  modify fun l => { l with edges }
  modify fun l => { l with status := .optimal }
  return s'.residual.flow

/-! ## Calls -/

/-- Answers a question from the variables. -/
def ask (r : Register) (l : Live) : Graph.Question → Graph.Reply
  | .numNodes => .number l.numNodes
  | .numEdges => .number l.numEdges
  | .status => .status l.status
  | q => Graph.ask (r := r) ⟨⟨l.edges, l.terminals⟩, l.config, l.search⟩ q

/-- One use of the variables. -/
def call (r : Register) (l : Live) : Graph.Call → Graph.Reply × Live
  | .edit e =>
    match exec (edit r e) l with
    | (.ok reply, l') => (reply, l')
    | (.error e, l') => (.refused e, l')
  | .solve =>
    match exec (solve r) l with
    | (.ok flow, l') => (.capacity flow, l')
    | (.error e, l') => (.refused e, l')
  | .ask q => (ask r l q, l)

end Live

end MinCut
