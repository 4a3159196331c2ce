/-
# Calls on a graph

A graph is used through calls, each of which is an edit, a solve or a question.  A call
that is refused leaves the graph as it was.  An observer hears of every search that
succeeds and of every edit that comes after the network was frozen, and of nothing else.

Main facts: `call_of_edit_error`, and `call_of_question`, which says that a question
changes nothing.
-/
import MinCut.Graph.Text
import MinCut.Transcript

namespace MinCut

namespace Graph

variable {r : Register}

/-- A change to a graph under construction. -/
inductive Edit where
  | addNode
  | addNodes (n : Nat)
  | addEdge (u v : Nat) (capacity reverseCapacity : Int)
  | setTerminalWeights (v : Nat) (source sink : Int)
  | addTerminalWeights (v : Nat) (source sink : Int)
  deriving DecidableEq

/-- Whether the capacities of a change are values of the register. -/
def Edit.fits (r : Register) : Edit → Bool
  | .addNode => true
  | .addNodes _ => true
  | .addEdge _ _ capacity reverseCapacity => r.fits capacity && r.fits reverseCapacity
  | .setTerminalWeights _ source sink => r.fits source && r.fits sink
  | .addTerminalWeights _ source sink => r.fits source && r.fits sink

/-- Something to ask a graph. -/
inductive Question where
  | segmentOf (v : Nat)
  | segment (v : Nat)
  | maximumFlow
  | minimumCut
  | edge (e : Nat)
  | terminalResidual (v : Nat)
  | numNodes
  | numEdges
  | status
  | inlineText
  | blockText
  | edgeText (e : Nat)
  | snapshot
  deriving DecidableEq

/-- A use of a graph. -/
inductive Call where
  | edit (e : Edit)
  | solve
  | ask (q : Question)
  deriving DecidableEq

/-- Whether the capacities of a call are values of the register. -/
def Call.fits (r : Register) : Call → Bool
  | .edit e => e.fits r
  | .solve => true
  | .ask _ => true

/-- What a use of a graph answers. -/
inductive Reply where
  /-- The call was carried out and has nothing to tell. -/
  | done
  /-- The number of a node or an edge, or a count. -/
  | number (n : Nat)
  /-- Nodes. -/
  | nodes (vs : List Nat)
  | capacity (x : Int)
  | capacity? (x : Option Int)
  | segment (s : Segment)
  | segment? (s : Option Segment)
  | edge? (e : Option Edge)
  | status (s : Status)
  | text (t : String)
  | snapshot (s : Snapshot)
  /-- The call was refused. -/
  | refused (e : GraphError)
  /-- The call must not be made, and ends without an answer. -/
  | aborted (e : GraphError)
  deriving DecidableEq

/-! ## Carrying out a call -/

/-- Makes a change. -/
def edit (g : Graph r) : Edit → Except GraphError (Reply × Graph r)
  | .addNode => do
    let (v, g) ← g.addNode
    return (.number v, g)
  | .addNodes n => do
    let (vs, g) ← g.addNodes n
    return (.nodes vs, g)
  | .addEdge u v capacity reverseCapacity => do
    let (e, g) ← g.addEdge u v capacity reverseCapacity
    return (.number e, g)
  | .setTerminalWeights v source sink => do
    return (.done, ← g.setTerminalWeights v source sink)
  | .addTerminalWeights v source sink => do
    return (.done, ← g.addTerminalWeights v source sink)

/-- Answers a question. -/
def ask (g : Graph r) : Question → Reply
  | .segmentOf v =>
    match g.segmentOf v with
    | .ok s => .segment s
    | .error e => .aborted e
  | .segment v => .segment? (g.segment? v)
  | .maximumFlow => .capacity g.maximumFlow
  | .minimumCut => .nodes g.minimumCut
  | .edge e => .edge? (g.edge? e)
  | .terminalResidual v => .capacity? (g.terminalResidual? v)
  | .numNodes => .number g.numNodes
  | .numEdges => .number g.numEdges
  | .status => .status g.status
  | .inlineText => .text g.inlineText
  | .blockText => .text g.blockText
  | .edgeText e => .text (g.edgeText e)
  | .snapshot => .snapshot g.snapshot

/-- What an observer hears of an edit that was refused. -/
def eventsOfRefusal : GraphError → List Event
  | .frozen => [.rejectedEdit]
  | _ => []

/-- A reply with what an observer heard meanwhile. -/
structure Answer where
  reply : Reply
  events : List Event
  deriving DecidableEq

/-- One use of a graph. -/
def call (g : Graph r) : Call → Answer × Graph r
  | .edit e =>
    match g.edit e with
    | .ok (reply, g') => (⟨reply, []⟩, g')
    | .error e => (⟨.refused e, eventsOfRefusal e⟩, g)
  | .solve =>
    match g.solve with
    | .ok solved => (⟨.capacity solved.flow, solved.events⟩, solved.graph)
    | .error e => (⟨.refused e, []⟩, g)
  | .ask q => (⟨g.ask q, []⟩, g)

/-- The answers to a list of calls on a graph without nodes, and the graph they leave. -/
def session (r : Register) (config : Config) (cs : List Call) : List Answer × Graph r :=
  transcript call (empty r config) cs

/-! ## Small facts -/

/-- A refused edit changes nothing. -/
theorem call_of_edit_error {g : Graph r} {e : Edit} {err : GraphError}
    (h : g.edit e = .error err) :
    g.call (.edit e) = (⟨.refused err, eventsOfRefusal err⟩, g) := by
  simp [call, h]

/-- A question changes nothing and is not heard. -/
theorem call_of_question (g : Graph r) (q : Question) :
    g.call (.ask q) = (⟨g.ask q, []⟩, g) := rfl

end Graph

end MinCut
