/-
# Building an arc table in place

A program that builds the table in place goes over the edges twice.  First it counts the references
of every node, and the counts tell where the rows begin; then it puts every reference into the
next free slot of its row.  All its reads and writes are checked.
-/
import MinCut.ArcTable.Build

namespace MinCut

namespace ArcTable

/-! ## Counting -/

/-- Counts one reference more for the node `u`. -/
def countAt (counts : Array Nat) (u : Nat) : Except Fault (Array Nat) := do
  let c ← fetch counts u
  return counts.setIfInBounds u (c + 1)

/-- Counts the arcs of an edge at its two ends. -/
def countEdge (counts : Array Nat) (e : Edge) : Except Fault (Array Nat) := do
  if e.isLoop then
    return counts
  else
    let counts ← countAt counts e.tail
    countAt counts e.head

/-- Counts the arcs of a list of edges. -/
def countEdges (counts : Array Nat) : List Edge → Except Fault (Array Nat)
  | [] => .ok counts
  | e :: es => do
    let counts ← countEdge counts e
    countEdges counts es

/-- The row number `i` begins where the row before it ends. -/
def startAt (counts starts : Array Nat) (i : Nat) : Except Fault (Array Nat) := do
  let start ← fetch starts i
  let before ← fetch starts (i - 1)
  let count ← fetch counts (i - 1)
  return starts.setIfInBounds i (start + (before + count))

/-- Where the rows of `n` nodes begin, and where the last one ends. -/
def startsOf (n : Nat) (counts : Array Nat) : Except Fault (Array Nat) :=
  (List.range' 1 n).foldlM (startAt counts) (Array.replicate (n + 1) 0)

/-! ## Filling the rows -/

/-- What stands in a slot before a reference is put there. -/
def placeholder : ArcRef := ⟨0, .forward⟩

/-- The slots of all rows, and how many of each row are filled. -/
structure Filling where
  slots : Array ArcRef
  filled : Array Nat
  deriving DecidableEq

/-- Puts a reference into the next free slot of the row of the node `u`. -/
def putRef (starts : Array Nat) (s : Filling) (u : Nat) (a : ArcRef) : Except Fault Filling := do
  let start ← fetch starts u
  let k ← fetch s.filled u
  let _ ← fetch s.slots (start + k)
  return ⟨s.slots.setIfInBounds (start + k) a, s.filled.setIfInBounds u (k + 1)⟩

/-- Puts the arcs of the edge with number `k` into the rows of its two ends. -/
def putEdge (starts : Array Nat) (s : Filling) (k : Nat) (e : Edge) : Except Fault Filling := do
  if e.isLoop then
    return s
  else
    let s ← putRef starts s e.tail ⟨k, .forward⟩
    putRef starts s e.head ⟨k, .reverse⟩

/-- Puts the arcs of a list of edges, numbered from `k` on, into the rows. -/
def putEdges (starts : Array Nat) (s : Filling) (k : Nat) : List Edge → Except Fault Filling
  | [] => .ok s
  | e :: es => do
    let s ← putEdge starts s k e
    putEdges starts s (k + 1) es

/-- The table of a network with `n` nodes on which nothing flows yet, built in place. -/
def layOut (n : Nat) (edges : Array Edge) : Except Fault ArcTable := do
  let counts ← countEdges (Array.replicate n 0) edges.toList
  let starts ← startsOf n counts
  let total ← fetch starts n
  let s ← putEdges starts ⟨Array.replicate total placeholder, Array.replicate n 0⟩ 0 edges.toList
  return { offsets := starts, adjacency := s.slots, pairs := edges.map ArcPair.ofEdge }

end ArcTable

end MinCut
