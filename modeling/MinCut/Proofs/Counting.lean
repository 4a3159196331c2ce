/-
# The table that is built in place

To build an arc table in place gives the table that gathering the rows gives, and stumbles over
an edge exactly where that does.  The counts grow with the rows, so they tell how long the rows
will be, and while the rows are filled each of them is the row gathered so far, followed by free
slots.  A row never outgrows its slots, for it is never longer than in the end.

Key facts:
* `countEdges_sizes` : counting is gathering, as far as lengths go, by induction on the edges;
* `startsOf_eq` : the rows begin at the running sums of the counts;
* `Fills.putEdges` : the rows are filled as they are gathered, by induction on the edges;
* `layOut_eq_build` : the same table, or the same fault.
-/
import MinCut.ArcTable.Counting
import MinCut.Proofs.Adjacency

namespace MinCut

namespace ArcTable

variable {rows rows' rows'' : Array (Array ArcRef)} {counts starts : Array Nat} {s : Filling}
variable {a p : ArcRef} {e : Edge} {es : List Edge} {k n u : Nat}

/-! ## Counting is gathering -/

/-- The lengths of the rows. -/
def sizes (rows : Array (Array ArcRef)) : Array Nat := rows.map Array.size

@[simp] theorem size_sizes (rows : Array (Array ArcRef)) : (sizes rows).size = rows.size := by
  simp [sizes]

theorem getElem?_sizes (rows : Array (Array ArcRef)) (u : Nat) :
    (sizes rows)[u]? = rows[u]?.map Array.size := by
  simp [sizes]

theorem sizes_setIfInBounds (rows : Array (Array ArcRef)) (u : Nat) (row : Array ArcRef) :
    sizes (rows.setIfInBounds u row) = (sizes rows).setIfInBounds u row.size := by
  simp [sizes, Array.map_setIfInBounds]

theorem countAt_sizes (rows : Array (Array ArcRef)) (u : Nat) (a : ArcRef) :
    countAt (sizes rows) u = (addRef rows u a).map sizes := by
  unfold countAt addRef fetch
  rw [getElem?_sizes, size_sizes]
  cases rows[u]? with
  | none => rfl
  | some row =>
    show Except.ok ((sizes rows).setIfInBounds u (row.size + 1)) =
      .ok (sizes (rows.setIfInBounds u (row.push a)))
    rw [sizes_setIfInBounds, Array.size_push]

theorem countEdge_sizes (rows : Array (Array ArcRef)) (k : Nat) (e : Edge) :
    countEdge (sizes rows) e = (addEdge rows k e).map sizes := by
  unfold countEdge addEdge
  cases e.isLoop with
  | true => rfl
  | false =>
    simp only [Bool.false_eq_true, ↓reduceIte]
    rw [countAt_sizes rows e.tail ⟨k, .forward⟩]
    cases addRef rows e.tail ⟨k, .forward⟩ with
    | error f => rfl
    | ok rows₁ => exact countAt_sizes rows₁ e.head ⟨k, .reverse⟩

/-- **Counting is gathering**, as far as the lengths of the rows go. -/
theorem countEdges_sizes (rows : Array (Array ArcRef)) (k : Nat) (es : List Edge) :
    countEdges (sizes rows) es = (addEdges rows k es).map sizes := by
  induction es generalizing rows k with
  | nil => rfl
  | cons e es ih =>
    unfold countEdges addEdges
    rw [countEdge_sizes rows k e]
    cases addEdge rows k e with
    | error f => rfl
    | ok rows₁ => exact ih rows₁ (k + 1)

/-! ## Where the rows begin -/

/-- Of the rows up to number `i` it is known where they begin. -/
structure StartsUpTo (counts starts : Array Nat) (i : Nat) : Prop where
  size_eq : starts.size = counts.size + 1
  known : ∀ j, j ≤ i → starts[j]? = some (counts.toList.take j).sum
  zero : ∀ j, i < j → j ≤ counts.size → starts[j]? = some 0

/-- The beginning of one row more. -/
theorem StartsUpTo.startAt {i : Nat} (h : StartsUpTo counts starts i) (hi : i < counts.size) :
    ∃ starts', startAt counts starts (i + 1) = .ok starts' ∧ StartsUpTo counts starts' (i + 1) := by
  have hstart := h.zero (i + 1) (by omega) hi
  have hbefore := h.known i (Nat.le_refl i)
  have hcount : counts[i]? = some counts[i] := Array.getElem?_eq_getElem hi
  have hsum : (counts.toList.take (i + 1)).sum = (counts.toList.take i).sum + counts[i] := by
    rw [List.take_add_one, List.sum_append]
    simp [hi]
  refine ⟨starts.setIfInBounds (i + 1) (0 + ((counts.toList.take i).sum + counts[i])),
    ?_, ?_, ?_, ?_⟩
  · simp only [ArcTable.startAt, fetch_eq_ok_iff.2 hstart, Nat.add_sub_cancel,
      fetch_eq_ok_iff.2 hbefore, fetch_eq_ok_iff.2 hcount, bind, Except.bind, pure, Except.pure]
  · simp [h.size_eq]
  · intro j hj
    rw [Array.getElem?_setIfInBounds]
    by_cases hij : i + 1 = j
    · subst hij
      rw [if_pos rfl, if_pos (by rw [h.size_eq]; omega), hsum, Nat.zero_add]
    · rw [if_neg hij]
      exact h.known j (by omega)
  · intro j hj hj'
    rw [Array.getElem?_setIfInBounds, if_neg (by omega)]
    exact h.zero j (by omega) hj'

/-- The beginnings of the next rows, one after the other. -/
theorem StartsUpTo.foldlM {i : Nat} (h : StartsUpTo counts starts i) (k : Nat)
    (hk : i + k ≤ counts.size) : ∃ starts',
      (List.range' (i + 1) k).foldlM (ArcTable.startAt counts) starts = .ok starts' ∧
        StartsUpTo counts starts' (i + k) := by
  induction k generalizing i starts with
  | zero => exact ⟨starts, rfl, h⟩
  | succ k ih =>
    obtain ⟨starts₁, hok, h₁⟩ := h.startAt (by omega)
    obtain ⟨starts₂, hok', h₂⟩ := ih h₁ (by omega)
    refine ⟨starts₂, ?_, ?_⟩
    · rw [List.range'_succ, List.foldlM_cons, hok]
      exact hok'
    · rw [show i + (k + 1) = i + 1 + k by omega]
      exact h₂

/-- **The rows begin at the running sums of the counts.** -/
theorem startsOf_eq (counts : Array Nat) :
    startsOf counts.size counts = .ok (runningSums 0 counts.toList).toArray := by
  have hzero : StartsUpTo counts (Array.replicate (counts.size + 1) 0) 0 := by
    refine ⟨by simp, ?_, ?_⟩
    · intro j hj
      obtain rfl : j = 0 := by omega
      simp
    · intro j _ hj
      simp [Nat.lt_succ_of_le hj]
  obtain ⟨starts, hok, h⟩ := hzero.foldlM counts.size (by omega)
  rw [Nat.zero_add] at hok h
  rw [startsOf, hok]
  congr 1
  apply Array.ext_getElem?
  intro j
  by_cases hj : j ≤ counts.size
  · rw [h.known j hj, List.getElem?_toArray, getElem?_runningSums 0 _ (by simpa using hj),
      Nat.zero_add]
  · rw [Array.getElem?_eq_none (by rw [h.size_eq]; omega), List.getElem?_toArray,
      List.getElem?_eq_none (by simp; omega)]

/-- Where the rows begin once they are laid out, and where the last one ends. -/
def rowStarts (rows : Array (Array ArcRef)) : Array Nat :=
  (runningSums 0 (sizes rows).toList).toArray

theorem getElem?_rowStarts (h : u ≤ rows.size) :
    (rowStarts rows)[u]? = some ((sizes rows).toList.take u).sum := by
  unfold rowStarts
  rw [List.getElem?_toArray, getElem?_runningSums 0 _ (by simpa using h), Nat.zero_add]

theorem startsOf_sizes (rows : Array (Array ArcRef)) :
    startsOf rows.size (sizes rows) = .ok (rowStarts rows) := by
  have hstarts := startsOf_eq (sizes rows)
  rw [size_sizes] at hstarts
  exact hstarts

/-! ## Slots -/

/-- The slots of a row that is to have `d` references and holds those of `row` so far; `p` stands in
those that are free. -/
def padded (p : ArcRef) (row : Array ArcRef) (d : Nat) : List ArcRef :=
  row.toList ++ List.replicate (d - row.size) p

/-- The slots hold the references of `rows`, where there is room for all those of `full`. -/
structure Fills (p : ArcRef) (rows full : Array (Array ArcRef)) (s : Filling) : Prop where
  filled_eq : s.filled = sizes rows
  slots_eq : s.slots.toList = (List.zipWith (padded p) rows.toList (sizes full).toList).flatten

/-- No row of `rows` is longer than it is in `full`. -/
structure Grows (rows full : Array (Array ArcRef)) : Prop where
  size_eq : rows.size = full.size
  length_le : ∀ u, (row rows u).length ≤ (row full u).length

theorem Grows.refl (rows : Array (Array ArcRef)) : Grows rows rows := ⟨rfl, fun _ => Nat.le_refl _⟩

theorem Grows.trans (h : Grows rows rows') (h' : Grows rows' rows'') : Grows rows rows'' :=
  ⟨h.size_eq.trans h'.size_eq, fun u => Nat.le_trans (h.length_le u) (h'.length_le u)⟩

/-- A reference is only added where there is a row, at its end. -/
theorem addRef_eq_ok (h : addRef rows u a = .ok rows') : ∃ row,
    rows[u]? = some row ∧ rows' = rows.setIfInBounds u (row.push a) := by
  obtain ⟨row, hrow, h⟩ := bind_eq_ok_iff.1 h
  exact ⟨row, fetch_eq_ok_iff.1 hrow, (Except.ok.inj h).symm⟩

theorem grows_of_addRef (h : addRef rows u a = .ok rows') : Grows rows rows' := by
  obtain ⟨r, hr, rfl⟩ := addRef_eq_ok h
  refine ⟨by simp, ?_⟩
  intro v
  unfold row
  rw [Array.getElem?_setIfInBounds]
  by_cases huv : u = v
  · subst huv
    rw [if_pos rfl, if_pos (Array.getElem?_eq_some_iff.1 hr).1, hr]
    simp
  · rw [if_neg huv]

theorem grows_of_addEdge (h : addEdge rows k e = .ok rows') : Grows rows rows' := by
  unfold addEdge at h
  cases hl : e.isLoop with
  | true =>
    rw [hl] at h
    obtain rfl : rows = rows' := Except.ok.inj h
    exact .refl rows
  | false =>
    rw [hl] at h
    obtain ⟨rows₁, h₁, h₂⟩ := bind_eq_ok_iff.1 h
    exact (grows_of_addRef h₁).trans (grows_of_addRef h₂)

theorem grows_of_addEdges (h : addEdges rows k es = .ok rows') : Grows rows rows' := by
  induction es generalizing rows k with
  | nil =>
    obtain rfl : rows = rows' := Except.ok.inj h
    exact .refl rows
  | cons e es ih =>
    obtain ⟨rows₁, h₁, h₂⟩ := bind_eq_ok_iff.1 h
    exact (grows_of_addEdge h₁).trans (ih h₂)

theorem size_of_addEdges {n : Nat} (h : addEdges (Array.replicate n #[]) k es = .ok rows) :
    rows.size = n := by
  rw [← (grows_of_addEdges h).size_eq, Array.size_replicate]

/-- A table that was built has the nodes that it was built for. -/
theorem numNodes_of_build {n : Nat} {edges : Array Edge} {t : ArcTable}
    (h : build n edges = .ok t) : t.numNodes = n := by
  obtain ⟨rows, hrows, ht⟩ := bind_eq_ok_iff.1 h
  obtain rfl := Except.ok.inj ht
  rw [numNodes_ofRows, size_of_addEdges hrows]

/-! ## Filling the rows -/

/-- An entry of one of several lists, in all of them together: it is there, and to set it there is
to set it in its own list. -/
theorem flatten_set {α : Type} (xss : List (List α)) {u k : Nat} {xs : List α} (x : α)
    (hu : xss[u]? = some xs) (hk : k < xs.length) :
    ((xss.map List.length).take u).sum + k < xss.flatten.length ∧
      xss.flatten.set (((xss.map List.length).take u).sum + k) x =
        (xss.set u (xs.set k x)).flatten := by
  induction xss generalizing u with
  | nil => cases hu
  | cons ys yss ih =>
    cases u with
    | zero =>
      obtain rfl : ys = xs := Option.some.inj hu
      refine ⟨?_, by simp [hk]⟩
      simp
      omega
    | succ u =>
      have hu' : yss[u]? = some xs := hu
      obtain ⟨hlt, hset⟩ := ih hu'
      have hle : ¬ ys.length + (((yss.map List.length).take u).sum + k) < ys.length := by omega
      refine ⟨?_, ?_⟩
      · simp only [List.flatten_cons, List.map_cons, List.take_succ_cons, List.sum_cons,
          List.length_append]
        omega
      · simp only [List.flatten_cons, List.map_cons, List.take_succ_cons, List.sum_cons,
          List.set_cons_succ, Nat.add_assoc, List.set_append, if_neg hle, Nat.add_sub_cancel_left,
          hset]

/-- The next free slot of a row. -/
theorem padded_set {r : Array ArcRef} {d : Nat} (a : ArcRef) (h : r.size < d) :
    (padded p r d).set r.size a = padded p (r.push a) d := by
  obtain ⟨j, hj⟩ : ∃ j, d - r.size = j + 1 := ⟨d - r.size - 1, by omega⟩
  have hj' : d - (r.size + 1) = j := by omega
  unfold padded
  rw [Array.size_push, hj, hj', List.replicate_succ, Array.toList_push]
  simp

theorem length_padded {r : Array ArcRef} {d : Nat} (h : r.size ≤ d) :
    (padded p r d).length = d := by
  simp [padded]
  omega

/-- There are as many slots as there will be references. -/
theorem Grows.map_length {full : Array (Array ArcRef)} (h : Grows rows full) :
    (List.zipWith (padded p) rows.toList (sizes full).toList).map List.length =
      (sizes full).toList := by
  have hsize := h.size_eq
  apply List.ext_getElem
  · simp [hsize]
  · intro u h₁ h₂
    have hlt : u < full.size := by simpa using h₂
    have hle := h.length_le u
    simp only [row, Array.getElem?_eq_getElem hlt, Array.getElem?_eq_getElem (hsize ▸ hlt),
      Option.getD_some, Array.length_toList] at hle
    simp only [List.getElem_map, List.getElem_zipWith, Array.getElem_toList]
    rw [length_padded]
    simpa [sizes] using hle

/-- **One reference** is put where it is gathered. -/
theorem Fills.putRef {full : Array (Array ArcRef)} (h : Fills p rows full s)
    (hok : addRef rows u a = .ok rows') (hgrows : Grows rows' full) : ∃ s',
      putRef (rowStarts full) s u a = .ok s' ∧ Fills p rows' full s' := by
  have hbefore := (grows_of_addRef hok).trans hgrows
  obtain ⟨r, hr, rfl⟩ := addRef_eq_ok hok
  have hlt : u < rows.size := (Array.getElem?_eq_some_iff.1 hr).1
  have hfull : u < full.size := hbefore.size_eq ▸ hlt
  have hroom : r.size < full[u].size := by
    have hle := hgrows.length_le u
    simp only [row, Array.getElem?_setIfInBounds, if_pos hlt, ↓reduceIte, Option.getD_some,
      Array.getElem?_eq_getElem hfull, Array.length_toList, Array.size_push] at hle
    omega
  -- the row lies where the running sums say
  have hpadded : (List.zipWith (padded p) rows.toList (sizes full).toList)[u]? =
      some (padded p r full[u].size) := by
    simp [List.getElem?_zipWith, hr, sizes, hfull]
  have hstart := getElem?_rowStarts (Nat.le_of_lt hfull)
  have hfilled : s.filled[u]? = some r.size := by
    rw [h.filled_eq, getElem?_sizes, hr]
    rfl
  obtain ⟨hslot, hset⟩ := flatten_set _ a hpadded
    (by rw [length_padded (Nat.le_of_lt hroom)]; exact hroom)
  rw [hbefore.map_length, ← h.slots_eq] at hslot hset
  refine ⟨⟨s.slots.setIfInBounds (((sizes full).toList.take u).sum + r.size) a,
    s.filled.setIfInBounds u (r.size + 1)⟩, ?_, ?_, ?_⟩
  · simp only [ArcTable.putRef, fetch_eq_ok_iff.2 hstart, fetch_eq_ok_iff.2 hfilled,
      fetch_of_lt (show _ < s.slots.size by simpa using hslot), bind, Except.bind, pure,
      Except.pure]
  · rw [sizes_setIfInBounds, Array.size_push, ← h.filled_eq]
  · rw [padded_set a hroom] at hset
    rw [Array.toList_setIfInBounds, hset]
    congr 1
    apply List.ext_getElem?
    intro v
    by_cases huv : u = v
    · subst huv
      simp [hfull, hbefore.size_eq, sizes]
    · simp [List.getElem?_zipWith, huv]

theorem Fills.putEdge {full : Array (Array ArcRef)} (h : Fills p rows full s)
    (hok : addEdge rows k e = .ok rows') (hgrows : Grows rows' full) : ∃ s',
      putEdge (rowStarts full) s k e = .ok s' ∧ Fills p rows' full s' := by
  unfold addEdge at hok
  unfold ArcTable.putEdge
  cases hl : e.isLoop with
  | true =>
    rw [hl] at hok
    obtain rfl : rows = rows' := Except.ok.inj hok
    exact ⟨s, rfl, h⟩
  | false =>
    rw [hl] at hok
    obtain ⟨rows₁, h₁, h₂⟩ := bind_eq_ok_iff.1 hok
    obtain ⟨s₁, hs₁, hf₁⟩ := h.putRef h₁ ((grows_of_addRef h₂).trans hgrows)
    obtain ⟨s₂, hs₂, hf₂⟩ := hf₁.putRef h₂ hgrows
    refine ⟨s₂, ?_, hf₂⟩
    simp only [Bool.false_eq_true, ↓reduceIte, hs₁, bind, Except.bind]
    exact hs₂

/-- **The rows are filled as they are gathered.** -/
theorem Fills.putEdges {full : Array (Array ArcRef)} (h : Fills p rows full s)
    (hok : addEdges rows k es = .ok full) : ∃ s',
      putEdges (rowStarts full) s k es = .ok s' ∧ Fills p full full s' := by
  induction es generalizing rows s k with
  | nil =>
    obtain rfl : rows = full := Except.ok.inj hok
    exact ⟨s, rfl, h⟩
  | cons e es ih =>
    obtain ⟨rows₁, h₁, h₂⟩ := bind_eq_ok_iff.1 hok
    obtain ⟨s₁, hs₁, hf₁⟩ := h.putEdge h₁ (grows_of_addEdges h₂)
    obtain ⟨s₂, hs₂, hf₂⟩ := ih hf₁ h₂
    refine ⟨s₂, ?_, hf₂⟩
    unfold ArcTable.putEdges
    simp only [hs₁, bind, Except.bind]
    exact hs₂

/-! ## The whole table -/

/-- Before the first reference all slots are free. -/
theorem fills_free (p : ArcRef) (full : Array (Array ArcRef)) :
    Fills p (Array.replicate full.size #[]) full
      ⟨Array.replicate (sizes full).toList.sum p, Array.replicate full.size 0⟩ where
  filled_eq := by simp [sizes]
  slots_eq := by
    have hfree : ∀ ds : List Nat,
        (List.zipWith (padded p) (List.replicate ds.length #[]) ds).flatten =
          List.replicate ds.sum p := by
      intro ds
      induction ds with
      | nil => rfl
      | cons d ds ih =>
        rw [List.length_cons, List.replicate_succ, List.zipWith_cons_cons, List.flatten_cons, ih,
          List.sum_cons, List.replicate_add]
        rfl
    have hlength : (sizes full).toList.length = full.size := by simp
    rw [Array.toList_replicate, Array.toList_replicate, ← hlength, hfree]

/-- When all references stand in their slots, the slots are the rows laid out. -/
theorem Fills.slots_eq_flatten (h : Fills p rows rows s) : s.slots = rows.flatten := by
  apply Array.toList_inj.1
  have hrows : List.zipWith (padded p) rows.toList (sizes rows).toList =
      rows.toList.map Array.toList := by
    apply List.ext_getElem
    · simp
    · intro u h₁ h₂
      simp [sizes, padded]
  rw [h.slots_eq, hrows, Array.toList_flatten]

/-- **To build a table in place** gives the table that gathering the rows gives, or fails with the
same fault. -/
theorem layOut_eq_build (n : Nat) (edges : Array Edge) : layOut n edges = build n edges := by
  have hcount := countEdges_sizes (Array.replicate n #[]) 0 edges.toList
  have hnone : sizes (Array.replicate n #[]) = Array.replicate n 0 := by simp [sizes]
  rw [hnone] at hcount
  unfold layOut build
  rw [hcount]
  cases hok : addEdges (Array.replicate n #[]) 0 edges.toList with
  | error f => rfl
  | ok full =>
    obtain rfl := size_of_addEdges hok
    have htotal : fetch (rowStarts full) full.size = .ok (sizes full).toList.sum := by
      rw [fetch_eq_ok_iff, getElem?_rowStarts (Nat.le_refl _), List.take_of_length_le (by simp)]
    obtain ⟨s, hs, hfills⟩ := (fills_free placeholder full).putEdges hok
    simp only [Except.map, startsOf_sizes, htotal, hs, bind, Except.bind, pure, Except.pure,
      hfills.slots_eq_flatten]
    simp [ofRows, rowStarts, sizes]

end ArcTable

end MinCut
