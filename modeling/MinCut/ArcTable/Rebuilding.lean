/-
# Building over an old table

A program keeps an arc table in variables, and whatever it builds there later is built in the same
variables.  It leaves the build as soon as a read or a write is out of bounds, and what it has
written by then stays written.

`LiveTable.build` makes the build of `ArcTable.layOut` in this manner: the arrays that hold an older
table are cleared and given their new size, the slots of the references with a placeholder in each,
and the pairs of arcs are added while the slots are filled.  It is also noted which slots are
written.
-/
import MinCut.ArcTable.Counting

namespace MinCut

/-- The variables of an arc table. -/
structure LiveTable where
  numNodes : Nat
  numPairs : Nat
  offsets : Array Nat
  adjacency : Array ArcRef
  pairs : Array ArcPair
  /-- All slots that references were written to, in the order of the writes. -/
  written : List Nat
  deriving DecidableEq

namespace LiveTable

/-- Steps of a program on the variables.  A step that fails keeps what was written before. -/
abbrev Step (α : Type) := ExceptT Fault (StateM LiveTable) α

/-- What the steps come to, and the variables after them. -/
def exec {α : Type} (step : Step α) (l : LiveTable) : Except Fault α × LiveTable := step.run.run l

/-- Goes on with the value of a computation, or fails as it does. -/
def ofExcept {α : Type} : Except Fault α → Step α
  | .ok x => return x
  | .error f => throw f

/-- The array with `n` entries: those past them are dropped, and `x` stands in those that are
missing. -/
def resized {α : Type} (xs : Array α) (n : Nat) (x : α) : Array α :=
  xs.extract 0 n ++ Array.replicate (n - xs.size) x

/-- Writes down where the row number `i` begins. -/
def startRow (counts : Array Nat) (i : Nat) : Step Unit := do
  let offsets ← ofExcept (ArcTable.startAt counts (← get).offsets i)
  modify fun l => { l with offsets }

/-- Puts a reference into the next free slot of the row of the node `u`. -/
def putRef (filled : Array Nat) (u : Nat) (a : ArcRef) : Step (Array Nat) := do
  let start ← ofExcept (fetch (← get).offsets u)
  let k ← ofExcept (fetch filled u)
  let _ ← ofExcept (fetch (← get).adjacency (start + k))
  modify fun l => { l with
    adjacency := l.adjacency.setIfInBounds (start + k) a
    written := l.written ++ [start + k] }
  return filled.setIfInBounds u (k + 1)

/-- Adds the pair of the edge with number `k`, and puts its arcs into the rows of its two ends. -/
def putEdge (filled : Array Nat) (k : Nat) (e : Edge) : Step (Array Nat) := do
  modify fun l => { l with pairs := l.pairs.push (ArcPair.ofEdge e) }
  if e.isLoop then
    return filled
  else
    let filled ← putRef filled e.tail ⟨k, .forward⟩
    putRef filled e.head ⟨k, .reverse⟩

/-- Adds a list of edges, numbered from `k` on. -/
def putEdges (filled : Array Nat) (k : Nat) : List Edge → Step (Array Nat)
  | [] => return filled
  | e :: es => do
    let filled ← putEdge filled k e
    putEdges filled (k + 1) es

/-- Builds the table of a network with `n` nodes on which nothing flows yet, whatever the variables
hold before; `p` stands in a slot before a reference is put there. -/
def build (p : ArcRef) (n : Nat) (edges : Array Edge) : Step Unit := do
  modify fun l => { l with numNodes := n, numPairs := edges.size }
  let counts ← ofExcept (ArcTable.countEdges (Array.replicate n 0) edges.toList)
  modify fun l => { l with offsets := #[] }
  modify fun l => { l with offsets := resized l.offsets (n + 1) 0 }
  (List.range' 1 n).forM (startRow counts)
  modify fun l => { l with adjacency := #[] }
  let total ← ofExcept (fetch (← get).offsets n)
  modify fun l => { l with adjacency := resized l.adjacency total p }
  modify fun l => { l with pairs := #[] }
  let _ ← putEdges (Array.replicate n 0) 0 edges.toList
  return ()

end LiveTable

end MinCut
