/-
# The arcs around a node

Building an arc table gathers the references of each node in a row and lays the rows out one
after the other.  The row of a node `u` holds, edge by edge in order, the forward arc of every
edge that leaves `u` and the reverse arc of every edge that enters it, except for loops.

Key facts:
* `addEdges_ok` : gathering succeeds if all edges but loops end at nodes, and yields the rows;
* `around_ofRows` : the laid out table finds each row again;
* `build_spec` : the table of a network lists around each node the arcs that leave it.
-/
import Mathlib.Algebra.BigOperators.Group.List.Lemmas
import Mathlib.Algebra.Ring.Nat
import MinCut.ArcTable.Build
import MinCut.Proofs.Arcs

namespace MinCut

namespace ArcTable

/-! ## What an edge adds to a row -/

/-- The arcs of the edge with number `k` that leave the node `u`. -/
def arcsAt (u k : Nat) (e : Edge) : List ArcRef :=
  if e.isLoop then []
  else (if e.tail = u then [⟨k, .forward⟩] else []) ++ (if e.head = u then [⟨k, .reverse⟩] else [])

/-- The arcs of a list of edges, numbered from `k` on, that leave the node `u`. -/
def arcsFrom (u k : Nat) : List Edge → List ArcRef
  | [] => []
  | e :: es => arcsAt u k e ++ arcsFrom u (k + 1) es

/-- The references in the row of the node `u`. -/
def row (rows : Array (Array ArcRef)) (u : Nat) : List ArcRef :=
  ((rows[u]?).getD #[]).toList

/-- Whether an edge is a loop or joins two of the first `n` nodes. -/
def Placed (n : Nat) (e : Edge) : Prop := e.isLoop = false → e.tail < n ∧ e.head < n

/-- A reference is added to one row, at its end. -/
theorem addRef_ok {rows : Array (Array ArcRef)} {u : Nat} (a : ArcRef) (h : u < rows.size) :
    ∃ rows', addRef rows u a = .ok rows' ∧ rows'.size = rows.size ∧
      ∀ v, row rows' v = row rows v ++ (if u = v then [a] else []) := by
  refine ⟨_, by simp only [addRef, fetch_of_lt h]; rfl, by simp, ?_⟩
  intro v
  unfold row
  rw [Array.getElem?_setIfInBounds]
  by_cases hv : u = v
  · subst hv
    simp [h]
  · simp [hv]

/-- An edge adds its arcs to the rows of its two ends. -/
theorem addEdge_ok {rows : Array (Array ArcRef)} (k : Nat) {e : Edge}
    (h : Placed rows.size e) :
    ∃ rows', addEdge rows k e = .ok rows' ∧ rows'.size = rows.size ∧
      ∀ v, row rows' v = row rows v ++ arcsAt v k e := by
  cases hl : e.isLoop with
  | true => exact ⟨rows, isLoop_addEdge hl, rfl, fun v => by simp [arcsAt, hl]⟩
  | false =>
    obtain ⟨ht, hh⟩ := h hl
    obtain ⟨rows₁, h₁, hs₁, hr₁⟩ := addRef_ok ⟨k, .forward⟩ ht
    obtain ⟨rows₂, h₂, hs₂, hr₂⟩ := addRef_ok ⟨k, .reverse⟩ (show e.head < rows₁.size from hs₁ ▸ hh)
    refine ⟨rows₂, ?_, hs₂.trans hs₁, ?_⟩
    · simp only [addEdge, hl, Bool.false_eq_true, ↓reduceIte, h₁, bind, Except.bind]
      exact h₂
    · intro v
      rw [hr₂, hr₁, List.append_assoc]
      simp [arcsAt, hl]

/-- **Gathering** succeeds if all edges but loops end at nodes, and yields the rows. -/
theorem addEdges_ok {rows : Array (Array ArcRef)} (k : Nat) {es : List Edge}
    (h : ∀ e ∈ es, Placed rows.size e) :
    ∃ rows', addEdges rows k es = .ok rows' ∧ rows'.size = rows.size ∧
      ∀ v, row rows' v = row rows v ++ arcsFrom v k es := by
  induction es generalizing rows k with
  | nil => exact ⟨rows, rfl, rfl, fun v => by simp [arcsFrom]⟩
  | cons e es ih =>
    obtain ⟨rows₁, h₁, hs₁, hr₁⟩ := addEdge_ok k (h e List.mem_cons_self)
    have hplaced : ∀ e' ∈ es, Placed rows₁.size e' := by
      intro e' he'
      rw [hs₁]
      exact h e' (List.mem_cons_of_mem e he')
    obtain ⟨rows₂, h₂, hs₂, hr₂⟩ := ih (k + 1) hplaced
    refine ⟨rows₂, ?_, hs₂.trans hs₁, ?_⟩
    · simp only [addEdges, h₁, bind, Except.bind]
      exact h₂
    · intro v
      rw [hr₂, hr₁, List.append_assoc, arcsFrom]

/-! ## Laying out the rows -/

/-- The running sums are the sums of the first lengths. -/
theorem getElem?_runningSums (s : Nat) (ds : List Nat) {i : Nat} (h : i ≤ ds.length) :
    (runningSums s ds)[i]? = some (s + (ds.take i).sum) := by
  induction ds generalizing s i with
  | nil =>
    obtain rfl : i = 0 := by simpa using h
    simp [runningSums]
  | cons d ds ih =>
    cases i with
    | zero => simp [runningSums]
    | succ i =>
      have hi : i ≤ ds.length := by simpa using h
      simp [runningSums, ih (s + d) hi, Nat.add_assoc]

/-- An offset is the total length of the rows before it. -/
theorem fetch_offsets_ofRows {rows : Array (Array ArcRef)} (pairs : Array ArcPair) {i : Nat}
    (h : i ≤ rows.size) : fetch (ofRows rows pairs).offsets i =
      .ok ((rows.toList.map Array.size).take i).sum := by
  apply fetch_eq_ok_iff.2
  simp only [ofRows, List.getElem?_toArray]
  rw [getElem?_runningSums 0 _ (by simpa using h), Nat.zero_add]

/-- The laid out table finds each row again. -/
theorem around_ofRows {rows : Array (Array ArcRef)} (pairs : Array ArcPair) {u : Nat}
    (h : u < rows.size) : (ofRows rows pairs).around u = .ok (row rows u) := by
  have hlen : u < (rows.toList.map Array.toList).length := by simpa using h
  have hsizes : rows.toList.map Array.size = (rows.toList.map Array.toList).map List.length := by
    rw [List.map_map]
    rfl
  have hrow : row rows u = (rows.toList.map Array.toList)[u] := by
    simp [row, h]
  unfold around
  simp only [fetch_offsets_ofRows pairs (Nat.le_of_lt h), fetch_offsets_ofRows pairs h, hsizes,
    bind, Except.bind, pure, Except.pure]
  rw [hrow, ← List.drop_take_succ_flatten_eq_getElem _ u hlen]
  simp only [ofRows, Array.toList_extract, Array.toList_flatten, List.extract_eq_take_drop,
    List.drop_take]

/-! ## The table of a network -/

/-- An arc is in the row of the node that it leaves, unless it leads back there. -/
theorem mem_arcsFrom {a : ArcRef} {u k : Nat} {es : List Edge} :
    a ∈ arcsFrom u k es ↔ ∃ j e, es[j]? = some e ∧ a.pair = k + j ∧ e.isLoop = false ∧
      (ArcPair.ofEdge e).target a.direction.opposite = u := by
  induction es generalizing k with
  | nil => simp [arcsFrom]
  | cons e es ih =>
    have hhead : a ∈ arcsAt u k e ↔ a.pair = k ∧ e.isLoop = false ∧
        (ArcPair.ofEdge e).target a.direction.opposite = u := by
      obtain ⟨p, d⟩ := a
      unfold arcsAt
      cases hl : e.isLoop with
      | true => simp
      | false =>
        cases d with
        | forward =>
          by_cases ht : e.tail = u <;> by_cases hh : e.head = u <;>
            simp [ht, hh, ArcPair.ofEdge, ArcPair.target, Direction.opposite]
        | reverse =>
          by_cases ht : e.tail = u <;> by_cases hh : e.head = u <;>
            simp [ht, hh, ArcPair.ofEdge, ArcPair.target, Direction.opposite]
    rw [arcsFrom, List.mem_append, hhead, ih]
    constructor
    · rintro (⟨hp, hl, ht⟩ | ⟨j, e', he', hp, hl, ht⟩)
      · exact ⟨0, e, rfl, hp, hl, ht⟩
      · exact ⟨j + 1, e', he', by omega, hl, ht⟩
    · rintro ⟨j, e', he', hp, hl, ht⟩
      cases j with
      | zero =>
        obtain rfl : e = e' := by simpa using he'
        exact Or.inl ⟨hp, hl, ht⟩
      | succ j => exact Or.inr ⟨j, e', by simpa using he', by omega, hl, ht⟩

/-- **The table of a network** exists if all edges but loops end at nodes.  It lists around
each node, edge by edge, the arcs that leave it. -/
theorem build_spec {n : Nat} {edges : Array Edge} (h : ∀ e ∈ edges, Placed n e) :
    ∃ t, build n edges = .ok t ∧ t.pairs = edges.map ArcPair.ofEdge ∧
      ∀ u, u < n → t.around u = .ok (arcsFrom u 0 edges.toList) := by
  have hplaced : ∀ e ∈ edges.toList, Placed (Array.replicate n (#[] : Array ArcRef)).size e := by
    intro e he
    rw [Array.size_replicate]
    exact h e (by simpa using he)
  obtain ⟨rows, hok, hsize, hrows⟩ := addEdges_ok 0 hplaced
  refine ⟨ofRows rows (edges.map ArcPair.ofEdge), ?_, rfl, ?_⟩
  · simp only [build, hok, bind, Except.bind, pure, Except.pure]
  · intro u hu
    rw [Array.size_replicate] at hsize
    rw [around_ofRows _ (by omega), hrows]
    simp [row, hu]

/-- In a table whose arcs are those of a list of edges, the arcs around a node are those that
leave it for another node. -/
theorem mem_arcsFrom_iff_leads {t : ArcTable} {edges : Array Edge} {a : ArcRef} {u : Nat}
    (hsize : t.pairs.size = edges.size)
    (hleads : ∀ k e, edges[k]? = some e → t.Leads ⟨k, .forward⟩ e.tail e.head) :
    a ∈ arcsFrom u 0 edges.toList ↔ ∃ v, t.Leads a u v ∧ u ≠ v := by
  have hends : ∀ e, edges[a.pair]? = some e → t.Leads a
      ((ArcPair.ofEdge e).target a.direction.opposite) ((ArcPair.ofEdge e).target a.direction) := by
    intro e he
    obtain ⟨k, d⟩ := a
    cases d with
    | forward => exact hleads k e he
    | reverse => exact (hleads k e he).sister
  have hloop : ∀ e : Edge, e.isLoop = false ↔
      (ArcPair.ofEdge e).target a.direction.opposite ≠ (ArcPair.ofEdge e).target a.direction := by
    intro e
    cases a.direction with
    | forward => simp [Edge.isLoop, ArcPair.ofEdge, ArcPair.target, Direction.opposite]
    | reverse =>
      rw [ne_comm]
      simp [Edge.isLoop, ArcPair.ofEdge, ArcPair.target, Direction.opposite]
  rw [mem_arcsFrom]
  constructor
  · rintro ⟨j, e, he, hp, hl, rfl⟩
    have he' : edges[a.pair]? = some e := by
      rw [hp, Nat.zero_add]
      simpa using he
    exact ⟨_, hends e he', (hloop e).1 hl⟩
  · rintro ⟨v, hv, hne⟩
    obtain ⟨p, hp, -, -⟩ := id hv
    have hlt : a.pair < edges.size := hsize ▸ (Array.getElem?_eq_some_iff.1 hp).1
    -- the ends of the arc are those of its edge, so the edge is no loop
    obtain ⟨rfl, rfl⟩ := hv.unique (hends _ (Array.getElem?_eq_getElem hlt))
    exact ⟨a.pair, edges[a.pair], by simp, by omega, (hloop _).2 hne, rfl⟩

end ArcTable

end MinCut
