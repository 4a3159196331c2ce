/-
# Building an arc table

The references of each node are first gathered in a row of its own: the edges are taken
in order, and each adds its forward arc to the row of its tail and its reverse arc to the
row of its head.  A loop can carry no flow between two nodes, so its arcs appear in no
row.  The rows are then laid out one after the other, and the offsets are the running
sums of their lengths.

Main facts: `isLoop_addEdge`, and `length_runningSums`, the number of offsets.
-/
import MinCut.ArcTable.Basic

namespace MinCut

namespace ArcTable

/-! ## Rows -/

/-- Adds a reference at the end of the row of the node `u`. -/
def addRef (rows : Array (Array ArcRef)) (u : Nat) (a : ArcRef) :
    Except Fault (Array (Array ArcRef)) := do
  let row ← fetch rows u
  return rows.setIfInBounds u (row.push a)

/-- Adds the arcs of the edge with number `k` to the rows of its two ends. -/
def addEdge (rows : Array (Array ArcRef)) (k : Nat) (e : Edge) :
    Except Fault (Array (Array ArcRef)) := do
  if e.isLoop then
    return rows
  else
    let rows ← addRef rows e.tail ⟨k, .forward⟩
    addRef rows e.head ⟨k, .reverse⟩

/-- Adds the arcs of a list of edges, numbered from `k` on. -/
def addEdges (rows : Array (Array ArcRef)) (k : Nat) : List Edge →
    Except Fault (Array (Array ArcRef))
  | [] => .ok rows
  | e :: es => do
    let rows ← addEdge rows k e
    addEdges rows (k + 1) es

/-! ## Layout -/

/-- The sums `s`, `s + d₀`, `s + d₀ + d₁`, … over a list of lengths. -/
def runningSums (s : Nat) : List Nat → List Nat
  | [] => [s]
  | d :: ds => s :: runningSums (s + d) ds

/-- The table with the given rows and pairs. -/
def ofRows (rows : Array (Array ArcRef)) (pairs : Array ArcPair) : ArcTable where
  offsets := (runningSums 0 (rows.toList.map Array.size)).toArray
  adjacency := rows.flatten
  pairs := pairs

/-- The table of a network with `n` nodes on which nothing flows yet.  An edge between two
different nodes must have both ends among the nodes. -/
def build (n : Nat) (edges : Array Edge) : Except Fault ArcTable := do
  let rows ← addEdges (Array.replicate n #[]) 0 edges.toList
  return ofRows rows (edges.map ArcPair.ofEdge)

/-! ## Small facts -/

/-- A loop changes no row. -/
theorem isLoop_addEdge {rows : Array (Array ArcRef)} {k : Nat} {e : Edge}
    (h : e.isLoop = true) : addEdge rows k e = .ok rows := by
  simp [addEdge, h, pure, Except.pure]

/-- There is one running sum more than there are lengths. -/
@[simp] theorem length_runningSums (s : Nat) (ds : List Nat) :
    (runningSums s ds).length = ds.length + 1 := by
  induction ds generalizing s with
  | nil => rfl
  | cons d ds ih => simp [runningSums, ih]

/-- A table has as many nodes as rows. -/
@[simp] theorem numNodes_ofRows (rows : Array (Array ArcRef)) (pairs : Array ArcPair) :
    (ofRows rows pairs).numNodes = rows.size := by
  simp [ofRows, numNodes]

end ArcTable

end MinCut
