/-
# Builds that fail

To build a table counts the ends of the edges first, one after the other, and loops are left out.
So a build fails at the first end that is none of the nodes, and if there is none it does not fail:
whatever is looked up later was in bounds when the ends were counted.

While the ends are counted nothing of the old table has been written over.  A program that goes on
after a build that failed goes on with the old table.

Key facts:
* `countEdges_eq` : to count edges is to count their ends;
* `foldlM_countAt_eq_error_iff` : counting fails at the first end out of range, by induction on the
  ends;
* `build_eq_error_iff` and `exists_strayEnd_iff` : which builds fail, and how;
* `build_allOrNothing` : what a build that fails leaves, and all that can be learned from it.
-/
import MinCut.Proofs.TableUses

namespace MinCut

namespace ArcTable

variable {counts : Array Nat} {edges : Array Edge} {f : Fault} {n u : Nat}

/-! ## Ends out of range -/

/-- The two ends of an edge that is no loop. -/
def ends (e : Edge) : List Nat := if e.isLoop then [] else [e.tail, e.head]

/-- The first end of the edges that is none of `n` nodes. -/
def strayEnd? (n : Nat) (edges : Array Edge) : Option Nat :=
  (edges.toList.flatMap ends).find? (n ≤ ·)

theorem countEdge_eq (counts : Array Nat) (e : Edge) :
    countEdge counts e = (ends e).foldlM countAt counts := by
  unfold countEdge ends
  cases e.isLoop with
  | true => rfl
  | false => simp

/-- **To count edges** is to count their ends, one after the other. -/
theorem countEdges_eq (counts : Array Nat) (es : List Edge) :
    countEdges counts es = (es.flatMap ends).foldlM countAt counts := by
  induction es generalizing counts with
  | nil => rfl
  | cons e es ih =>
    rw [List.flatMap_cons, List.foldlM_append, ← countEdge_eq]
    unfold countEdges
    congr 1
    funext counts₁
    exact ih counts₁

theorem countAt_of_size_le (h : counts.size ≤ u) :
    countAt counts u = .error (.outOfRange u counts.size) := by
  unfold countAt
  rw [fetch_eq_error_iff.2 ⟨h, rfl⟩]
  rfl

theorem exists_countAt (h : u < counts.size) :
    ∃ counts', countAt counts u = .ok counts' ∧ counts'.size = counts.size := by
  refine ⟨counts.setIfInBounds u (counts[u] + 1), ?_, Array.size_setIfInBounds⟩
  unfold countAt
  rw [fetch_of_lt h]
  rfl

/-- **Counting fails** at the first end out of range. -/
theorem foldlM_countAt_eq_error_iff {us : List Nat} : us.foldlM countAt counts = .error f ↔
    ∃ u, us.find? (counts.size ≤ ·) = some u ∧ f = .outOfRange u counts.size := by
  induction us generalizing counts with
  | nil => simp [pure, Except.pure]
  | cons u us ih =>
    rw [List.foldlM_cons]
    by_cases hu : counts.size ≤ u
    · rw [countAt_of_size_le hu, List.find?_cons_of_pos (by simpa using hu)]
      simp [bind, Except.bind, eq_comm]
    · obtain ⟨counts₁, hok, hsize⟩ := exists_countAt (Nat.lt_of_not_le hu)
      rw [hok, List.find?_cons_of_neg (by simpa using hu), ← hsize]
      exact ih

/-- **A build fails** at the first end that is no node. -/
theorem build_eq_error_iff :
    build n edges = .error f ↔ ∃ u, strayEnd? n edges = some u ∧ f = .outOfRange u n := by
  rw [build_eq_error_iff_countEdges, countEdges_eq, foldlM_countAt_eq_error_iff,
    Array.size_replicate, strayEnd?]

/-- There is one exactly if an edge that is no loop has an end past the nodes. -/
theorem exists_strayEnd_iff : (∃ u, strayEnd? n edges = some u) ↔
    ∃ e ∈ edges, e.tail ≠ e.head ∧ (n ≤ e.tail ∨ n ≤ e.head) := by
  have hends : ∀ e, (∃ u ∈ ends e, n ≤ u) ↔ e.tail ≠ e.head ∧ (n ≤ e.tail ∨ n ≤ e.head) := by
    intro e
    unfold ends Edge.isLoop
    by_cases h : e.tail = e.head <;> simp [h]
  rw [← Option.isSome_iff_exists, strayEnd?, List.find?_isSome]
  simp only [List.mem_flatMap, Array.mem_toList_iff, decide_eq_true_eq, ← hends]
  constructor
  · rintro ⟨u, ⟨e, he, hu⟩, hn⟩
    exact ⟨e, he, u, hu, hn⟩
  · rintro ⟨e, he, u, hu, hn⟩
    exact ⟨u, ⟨e, he, hu⟩, hn⟩

end ArcTable

namespace LiveTable

open ArcTable

variable {edges : Array Edge} {f : Fault} {n : Nat} {l l' : LiveTable}

/-! ## The build in variables -/

/-- The build in variables fails as the build of the table does. -/
theorem exec_build_fst (p : ArcRef) (n : Nat) (edges : Array Edge) (l : LiveTable) :
    (exec (build p n edges) l).1 = (ArcTable.build n edges).map fun _ => () := by
  cases hbuild : ArcTable.build n edges with
  | error f =>
    rw [exec_build_of_error hbuild]
    rfl
  | ok t =>
    obtain ⟨slots, hexec, -⟩ := exec_build hbuild p l
    rw [hexec]
    rfl

theorem exec_build_eq_error {p : ArcRef} (h : exec (build p n edges) l = (.error f, l')) :
    l' = { l with numNodes := n, numPairs := edges.size } := by
  have hfst := exec_build_fst p n edges l
  rw [h, eq_comm, map_eq_error_iff] at hfst
  rw [exec_build_of_error hfst] at h
  exact (Prod.mk.inj h).2.symm

/-- **A build succeeds as a whole or leaves the old table.**  Whatever the variables hold, a build
fails exactly if an edge that is no loop has an end which is none of the `n` nodes, and then it has
only written the two counts.  Neither the replies to later uses nor the table that they leave tell
that it was attempted. -/
theorem build_allOrNothing (r : Register) (p : ArcRef) (n : Nat) (edges : Array Edge)
    (l : LiveTable) :
    (exec (build p n edges) l).1 = (ArcTable.build n edges).map (fun _ => ()) ∧
    ((∃ f, (exec (build p n edges) l).1 = .error f) ↔
      ∃ e ∈ edges, e.tail ≠ e.head ∧ (n ≤ e.tail ∨ n ≤ e.head)) ∧
    ∀ f l', exec (build p n edges) l = (.error f, l') →
      l' = { l with numNodes := n, numPairs := edges.size } ∧
      ∀ cs : List Use, (transcript (call r p) l' cs).1 = (transcript (call r p) l cs).1 ∧
        (transcript (call r p) l' cs).2.table = (transcript (call r p) l cs).2.table := by
  have hfst := exec_build_fst p n edges l
  refine ⟨hfst, ?_, ?_⟩
  · rw [hfst, ← exists_strayEnd_iff]
    simp only [map_eq_error_iff, build_eq_error_iff]
    constructor
    · rintro ⟨f, u, hu, -⟩
      exact ⟨u, hu⟩
    · rintro ⟨u, hu⟩
      exact ⟨_, u, hu, rfl⟩
  · intro f l' hexec
    obtain rfl := exec_build_eq_error hexec
    exact ⟨rfl, transcript_alike rfl⟩

/-- Edges between two nodes, but for a loop at a node that does not exist and an edge to another
such node. -/
def torn : Array Edge := #[.idle 0 1 2 2, .idle 9 9 1 1, .idle 1 2 3 0, .idle 1 0 1 1]

/-- Variables that hold an edge between two nodes, along which something flows, and a loop. -/
def kept : LiveTable :=
  ⟨2, 2, #[0, 1, 2], #[⟨0, .forward⟩, ⟨0, .reverse⟩], #[⟨0, 1, 1, 3⟩, ⟨1, 1, 4, 0⟩], [0, 1]⟩

/-- Uses of what is kept; no arc of the third edge is to be found there. -/
def probes : List Use :=
  [⟨.around 1, #[]⟩, ⟨.head ⟨2, .forward⟩, #[]⟩, ⟨.residual ⟨0, .forward⟩, #[]⟩,
    ⟨.pushFlow ⟨0, .forward⟩ 1, #[]⟩, ⟨.takeFlows, #[.idle 0 1 3 1]⟩, ⟨.pairs, #[]⟩]

theorem build_allOrNothing_torn : ∃ l',
    exec (build ⟨4, .forward⟩ 2 torn) kept = (.error (.outOfRange 2 2), l') ∧
    l' = { kept with numPairs := 4 } ∧
    (transcript (call (.signed 8) ⟨4, .forward⟩) l' probes).1 =
      [.ok (.arcs [(⟨0, .reverse⟩, 0, 3)]), .error (.outOfRange 2 2), .ok (.capacity 1),
        .ok (.pairs [⟨0, 1, 0, 4⟩, ⟨1, 1, 4, 0⟩]), .ok (.flows [3]),
        .ok (.pairs [⟨0, 1, 0, 4⟩, ⟨1, 1, 4, 0⟩])] := by
  have hexec : exec (build ⟨4, .forward⟩ 2 torn) kept =
    (.error (.outOfRange 2 2), { kept with numPairs := 4 }) := rfl
  obtain ⟨-, -, hlater⟩ := build_allOrNothing (.signed 8) ⟨4, .forward⟩ 2 torn kept
  obtain ⟨hstate, hreplies⟩ := hlater _ _ hexec
  refine ⟨_, hexec, hstate, ?_⟩
  rw [(hreplies probes).1]
  rfl

end LiveTable

end MinCut
