/-
# The table that is built over an old one

To build a table in variables that hold an older one leaves nothing of it: the new table is the one
that gathering the rows gives, in every variable.  Each slot of the references is written once.  For
there are as many writes as there are slots, and a slot that was never written would still hold the
placeholder, which is none of the references that are found there in the end.

Key facts:
* `exists_laysOut` : the table lists all arcs of its edges, each at the node that it leaves;
* `exec_putEdges` : what is written while the slots are filled, by induction on the edges;
* `exec_build` : the variables after a build;
* `build_afresh` : the build as a whole.
-/
import MinCut.ArcTable.Rebuilding
import MinCut.Proofs.SolvesInPlace

namespace MinCut

namespace ArcTable

variable {rows rows' : Array (Array ArcRef)} {edges : Array Edge} {es : List Edge} {t : ArcTable}
variable {a : ArcRef} {e : Edge} {k n u : Nat}

/-! ## How many references there are -/

/-- How many edges join two different nodes. -/
def numLinks (es : List Edge) : Nat := es.countP fun e => !e.isLoop

theorem numLinks_cons (e : Edge) (es : List Edge) :
    numLinks (e :: es) = numLinks es + if e.isLoop then 0 else 1 := by
  unfold numLinks
  rw [List.countP_cons]
  cases e.isLoop <;> rfl

theorem sum_sizes_of_addRef (h : addRef rows u a = .ok rows') :
    (sizes rows').toList.sum = (sizes rows).toList.sum + 1 := by
  obtain ⟨row, hrow, rfl⟩ := addRef_eq_ok h
  obtain ⟨hlt, hrow⟩ := Array.getElem?_eq_some_iff.1 hrow
  have hlength : u < (sizes rows).toList.length := by simpa using hlt
  have hsplit := List.sum_take_add_sum_drop (sizes rows).toList u
  have hsize : (sizes rows).toList[u] = row.size := by simp [sizes, hrow]
  rw [List.drop_eq_getElem_cons hlength, List.sum_cons, hsize] at hsplit
  rw [sizes_setIfInBounds, Array.toList_setIfInBounds, List.sum_set, if_pos hlength,
    Array.size_push]
  omega

theorem sum_sizes_of_addEdges (h : addEdges rows k es = .ok rows') :
    (sizes rows').toList.sum = (sizes rows).toList.sum + 2 * numLinks es := by
  induction es generalizing rows k with
  | nil =>
    obtain rfl : rows = rows' := Except.ok.inj h
    rfl
  | cons e es ih =>
    obtain ⟨rows₁, h₁, h₂⟩ := bind_eq_ok_iff.1 h
    rw [ih h₂, numLinks_cons]
    unfold addEdge at h₁
    cases hl : e.isLoop with
    | true =>
      rw [hl] at h₁
      obtain rfl : rows = rows₁ := Except.ok.inj h₁
      rfl
    | false =>
      rw [hl] at h₁
      obtain ⟨rows₂, htail, hhead⟩ := bind_eq_ok_iff.1 h₁
      rw [sum_sizes_of_addRef hhead, sum_sizes_of_addRef htail]
      simp only [Bool.false_eq_true, ↓reduceIte]
      omega

/-! ## No arc twice -/

theorem le_of_mem_arcsFrom (h : a ∈ arcsFrom u k es) : k ≤ a.pair := by
  obtain ⟨j, _, _, hpair, -⟩ := mem_arcsFrom.1 h
  omega

theorem nodup_arcsAt (u k : Nat) (e : Edge) : (arcsAt u k e).Nodup := by
  unfold arcsAt
  by_cases ht : e.tail = u <;> by_cases hh : e.head = u <;> cases e.isLoop <;> simp [ht, hh]

/-- No arc is listed twice around a node. -/
theorem nodup_arcsFrom (u k : Nat) (es : List Edge) : (arcsFrom u k es).Nodup := by
  induction es generalizing k with
  | nil => exact List.nodup_nil
  | cons e es ih =>
    refine (nodup_arcsAt u k e).append (ih (k + 1)) ?_
    intro a hat hfrom
    have hle := le_of_mem_arcsFrom hfrom
    have hpair : a.pair = k := by
      have hmem : a ∈ arcsFrom u k [e] := by simpa [arcsFrom] using hat
      obtain ⟨j, _, hj, hpair, -⟩ := mem_arcsFrom.1 hmem
      have hlt := (List.getElem?_eq_some_iff.1 hj).1
      rw [List.length_singleton] at hlt
      omega
    omega

/-! ## The table of a list of edges -/

/-- **The table `t` lays out the edges** : a row for each of the `n` nodes, one after the other and
without gaps, and in the row of a node the arcs that leave it, edge by edge. -/
structure LaysOut (n : Nat) (edges : Array Edge) (t : ArcTable) : Prop where
  size_offsets : t.offsets.size = n + 1
  first_eq : t.offsets[0]? = some 0
  sorted : t.offsets.toList.Pairwise (· ≤ ·)
  last_eq : t.offsets[n]? = some t.adjacency.size
  size_adjacency : t.adjacency.size = 2 * numLinks edges.toList
  slice_eq : ∀ u, u < n → t.slice u = .ok (arcsFrom u 0 edges.toList)
  /-- Every slot holds an arc of one of the edges. -/
  pair_lt : ∀ a ∈ t.adjacency, a.pair < edges.size
  pairs_eq : t.pairs = edges.map ArcPair.ofEdge
  /-- An arc around `u` is that of an edge of `u`, and leads to the other end of this edge. -/
  head_eq : ∀ u a, a ∈ arcsFrom u 0 edges.toList → ∃ e v, edges[a.pair]? = some e ∧
    (a.direction = .forward ∧ e.tail = u ∧ e.head = v ∨
      a.direction = .reverse ∧ e.head = u ∧ e.tail = v) ∧ u ≠ v ∧ t.head a = .ok v
  /-- Its sister leads back to `u`, and is listed once around the other end. -/
  sister_eq : ∀ u a v, a ∈ arcsFrom u 0 edges.toList → t.head a = .ok v →
    t.head a.sister = .ok u ∧ ∃ as, t.slice v = .ok as ∧ as.count a.sister = 1

/-- What is listed around a node are arcs of edges that are no loops and lead from there. -/
theorem mem_arcsFrom_zero : a ∈ arcsFrom u 0 edges.toList ↔ ∃ e, edges[a.pair]? = some e ∧
    e.isLoop = false ∧ (ArcPair.ofEdge e).target a.direction.opposite = u := by
  rw [mem_arcsFrom]
  constructor
  · rintro ⟨j, e, he, hpair, hrest⟩
    obtain rfl : a.pair = j := by omega
    exact ⟨e, by simpa using he, hrest⟩
  · rintro ⟨e, he, hrest⟩
    exact ⟨a.pair, e, by simpa using he, by omega, hrest⟩

/-- Only nodes have arcs around them. -/
theorem lt_of_mem_arcsFrom (h : ∀ e ∈ edges, Placed n e) (ha : a ∈ arcsFrom u 0 edges.toList) :
    u < n := by
  obtain ⟨e, he, hloop, rfl⟩ := mem_arcsFrom_zero.1 ha
  obtain ⟨htail, hhead⟩ := h e (Array.mem_of_getElem? he) hloop
  cases a.direction with
  | forward => exact htail
  | reverse => exact hhead

section Ends

variable (hpairs : t.pairs = edges.map ArcPair.ofEdge)

include hpairs

theorem head_eq_ofEdge (he : edges[a.pair]? = some e) :
    t.head a = .ok ((ArcPair.ofEdge e).target a.direction) :=
  head_eq_ok_iff.2 ⟨ArcPair.ofEdge e, by simp [hpairs, he], rfl⟩

/-- An arc that is listed leads to the other end of its edge. -/
theorem exists_head_of_mem_arcsFrom (ha : a ∈ arcsFrom u 0 edges.toList) : ∃ e v,
    edges[a.pair]? = some e ∧ (a.direction = .forward ∧ e.tail = u ∧ e.head = v ∨
      a.direction = .reverse ∧ e.head = u ∧ e.tail = v) ∧ u ≠ v ∧ t.head a = .ok v := by
  obtain ⟨e, he, hloop, rfl⟩ := mem_arcsFrom_zero.1 ha
  refine ⟨e, _, he, ?_, ?_, head_eq_ofEdge hpairs he⟩
  · cases a.direction with
    | forward => exact .inl ⟨rfl, rfl, rfl⟩
    | reverse => exact .inr ⟨rfl, rfl, rfl⟩
  · have hne : e.tail ≠ e.head := by simpa [Edge.isLoop] using hloop
    cases a.direction with
    | forward => exact hne
    | reverse => exact hne.symm

/-- Its sister leads back, and is listed at the other end. -/
theorem sister_of_mem_arcsFrom {v : Nat} (ha : a ∈ arcsFrom u 0 edges.toList)
    (hv : t.head a = .ok v) :
    t.head a.sister = .ok u ∧ a.sister ∈ arcsFrom v 0 edges.toList := by
  obtain ⟨e, he, hloop, rfl⟩ := mem_arcsFrom_zero.1 ha
  rw [head_eq_ofEdge hpairs he] at hv
  obtain rfl := Except.ok.inj hv
  refine ⟨head_eq_ofEdge hpairs he, mem_arcsFrom_zero.2 ⟨e, he, hloop, ?_⟩⟩
  show (ArcPair.ofEdge e).target a.direction.opposite.opposite = _
  rw [Direction.opposite_opposite]

end Ends

/-- The offsets of rows that are laid out. -/
theorem offsets_ofRows (rows : Array (Array ArcRef)) (pairs : Array ArcPair) :
    (ofRows rows pairs).offsets = rowStarts rows := by
  simp [ofRows, rowStarts, sizes]

theorem size_adjacency_ofRows (rows : Array (Array ArcRef)) (pairs : Array ArcPair) :
    (ofRows rows pairs).adjacency.size = (sizes rows).toList.sum := by
  simp [ofRows, sizes, ← Array.sum_toList]

theorem size_rowStarts (rows : Array (Array ArcRef)) : (rowStarts rows).size = rows.size + 1 := by
  simp [rowStarts]

/-- No row begins before the one that it follows. -/
theorem pairwise_rowStarts (rows : Array (Array ArcRef)) :
    (rowStarts rows).toList.Pairwise (· ≤ ·) := by
  rw [List.pairwise_iff_getElem]
  intro i j hi hj hij
  rw [Array.length_toList, size_rowStarts] at hi hj
  have hstart : ∀ {k : Nat} (hk : k < (rowStarts rows).toList.length),
      (rowStarts rows).toList[k] = ((sizes rows).toList.take k).sum := by
    intro k hk
    rw [Array.length_toList, size_rowStarts] at hk
    have hget := getElem?_rowStarts (Nat.le_of_lt_succ hk)
    rw [Array.getElem_toList]
    exact (Array.getElem?_eq_some_iff.1 hget).2
  rw [hstart, hstart, ← Nat.add_sub_of_le (Nat.le_of_lt hij), List.take_add, List.sum_append]
  exact Nat.le_add_right _ _

/-- Rows that hold the arcs of the edges, laid out. -/
theorem laysOut_ofRows (h : ∀ e ∈ edges, Placed n e) (hsize : rows.size = n)
    (hrow : ∀ u, row rows u = arcsFrom u 0 edges.toList)
    (hsum : (sizes rows).toList.sum = 2 * numLinks edges.toList) :
    LaysOut n edges (ofRows rows (edges.map ArcPair.ofEdge)) := by
  have hslice : ∀ u, u < n → (ofRows rows (edges.map ArcPair.ofEdge)).slice u =
      .ok (arcsFrom u 0 edges.toList) := by
    intro u hu
    rw [slice_ofRows _ (hsize ▸ hu), hrow]
  exact
    { size_offsets := by rw [offsets_ofRows, size_rowStarts, hsize]
      first_eq := by
        rw [offsets_ofRows, getElem?_rowStarts (Nat.zero_le _)]
        rfl
      sorted := by
        rw [offsets_ofRows]
        exact pairwise_rowStarts rows
      last_eq := by
        rw [offsets_ofRows, size_adjacency_ofRows, getElem?_rowStarts (Nat.le_of_eq hsize.symm),
          List.take_of_length_le (by simp [hsize])]
      size_adjacency := by rw [size_adjacency_ofRows, hsum]
      slice_eq := hslice
      pair_lt := by
        intro a ha
        obtain ⟨r, hr, har⟩ := Array.mem_flatten.1 (show a ∈ rows.flatten from ha)
        obtain ⟨u, hu⟩ := Array.getElem?_of_mem hr
        have hmem : a ∈ row rows u := by
          rw [row, hu]
          simpa using har
        rw [hrow] at hmem
        obtain ⟨e, he, -⟩ := mem_arcsFrom_zero.1 hmem
        exact (Array.getElem?_eq_some_iff.1 he).1
      pairs_eq := rfl
      head_eq := fun u a ha => exists_head_of_mem_arcsFrom rfl ha
      sister_eq := by
        intro u a v ha hv
        obtain ⟨hback, hmem⟩ := sister_of_mem_arcsFrom rfl ha hv
        exact ⟨hback, _, hslice v (lt_of_mem_arcsFrom h hmem),
          List.count_eq_one_of_mem (nodup_arcsFrom v 0 _) hmem⟩ }

/-- **The table that is built** lays out its edges. -/
theorem exists_laysOut (h : ∀ e ∈ edges, Placed n e) :
    ∃ t, build n edges = .ok t ∧ LaysOut n edges t := by
  have hplaced : ∀ e ∈ edges.toList, Placed (Array.replicate n (#[] : Array ArcRef)).size e := by
    intro e he
    rw [Array.size_replicate]
    exact h e (by simpa using he)
  obtain ⟨rows, hok, hsize, hrows⟩ := addEdges_ok 0 hplaced
  rw [Array.size_replicate] at hsize
  have hrow : ∀ u, row rows u = arcsFrom u 0 edges.toList := by
    intro u
    have hnone : row (Array.replicate n #[]) u = [] := by
      unfold row
      by_cases hu : u < n <;> simp [hu]
    rw [hrows, hnone, List.nil_append]
  have hsum := sum_sizes_of_addEdges hok
  have hzero : (sizes (Array.replicate n #[])).toList.sum = 0 := by simp [sizes]
  rw [hzero, Nat.zero_add] at hsum
  refine ⟨_, ?_, laysOut_ofRows h hsize hrow hsum⟩
  simp only [build, hok, bind, Except.bind, pure, Except.pure]

end ArcTable

namespace LiveTable

open ArcTable

variable {α β : Type} {m : Step α} {f : α → Step β} {x : Except Fault α} {y : α}
variable {l l' : LiveTable} {counts starts filled : Array Nat} {edges : Array Edge}
variable {es : List Edge} {e : Edge} {s : Filling} {a : ArcRef} {k n u : Nat}

/-! ## Running steps -/

theorem exec_bind (h : exec m l = (.ok y, l')) : exec (m >>= f) l = exec (f y) l' := by
  unfold exec at h ⊢
  rw [ExceptT.run_bind, StateT.run_bind]
  simp only [h, bind]

theorem exec_ofExcept (h : x = .ok y) (l : LiveTable) : exec (ofExcept x) l = (.ok y, l) := by
  subst h
  rfl

theorem exec_get (l : LiveTable) : exec get l = (.ok l, l) := rfl

theorem exec_modify (g : LiveTable → LiveTable) (l : LiveTable) :
    exec (modify g) l = (.ok (), g l) := rfl

/-- The rows are found where they begin. -/
theorem exec_startRows {is : List Nat} (h : is.foldlM (startAt counts) l.offsets = .ok starts) :
    exec (is.forM (startRow counts)) l = (.ok (), { l with offsets := starts }) := by
  induction is generalizing l with
  | nil =>
    obtain rfl := Except.ok.inj h
    rfl
  | cons i is ih =>
    rw [List.foldlM_cons] at h
    obtain ⟨starts₁, h₁, h₂⟩ := bind_eq_ok_iff.1 h
    have hrow : exec (startRow counts i) l = (.ok (), { l with offsets := starts₁ }) := by
      unfold startRow
      rw [exec_bind (exec_get l), exec_bind (exec_ofExcept h₁ l)]
      rfl
    rw [List.forM, exec_bind hrow]
    exact ih h₂

/-! ## Filling the slots -/

/-- Nothing was written but to these slots. -/
def OnlyAt (slots : List Nat) (before after : Array ArcRef) : Prop :=
  ∀ i, i ∉ slots → after[i]? = before[i]?

theorem OnlyAt.append {slots slots' : List Nat} {xs ys zs : Array ArcRef}
    (h : OnlyAt slots xs ys) (h' : OnlyAt slots' ys zs) : OnlyAt (slots ++ slots') xs zs := by
  intro i hi
  rw [List.mem_append, not_or] at hi
  rw [h' i hi.2, h i hi.1]

/-- **One reference** is put as it is in a filling, and one slot is written. -/
theorem exec_putRef (h : ArcTable.putRef l.offsets ⟨l.adjacency, filled⟩ u a = .ok s) :
    ∃ i, exec (putRef filled u a) l =
        (.ok s.filled, { l with adjacency := s.slots, written := l.written ++ [i] }) ∧
      OnlyAt [i] l.adjacency s.slots := by
  obtain ⟨start, hstart, h⟩ := bind_eq_ok_iff.1 h
  obtain ⟨k, hk, h⟩ := bind_eq_ok_iff.1 h
  obtain ⟨_, hslot, h⟩ := bind_eq_ok_iff.1 h
  obtain rfl := Except.ok.inj h
  refine ⟨start + k, ?_, ?_⟩
  · unfold putRef
    rw [exec_bind (exec_get l), exec_bind (exec_ofExcept hstart l),
      exec_bind (exec_ofExcept hk l), exec_bind (exec_get l), exec_bind (exec_ofExcept hslot l),
      exec_bind (exec_modify _ l)]
    rfl
  · intro i hi
    rw [List.mem_singleton] at hi
    exact Array.getElem?_setIfInBounds_ne (Ne.symm hi)

/-- **One edge.** -/
theorem exec_putEdge (h : ArcTable.putEdge l.offsets ⟨l.adjacency, filled⟩ k e = .ok s) :
    ∃ slots, exec (putEdge filled k e) l = (.ok s.filled, { l with
        adjacency := s.slots
        pairs := l.pairs.push (ArcPair.ofEdge e)
        written := l.written ++ slots }) ∧
      slots.length = 2 * numLinks [e] ∧ OnlyAt slots l.adjacency s.slots := by
  unfold ArcTable.putEdge at h
  unfold putEdge
  rw [exec_bind (exec_modify _ l)]
  cases hl : e.isLoop with
  | true =>
    rw [hl] at h
    obtain rfl := Except.ok.inj h
    refine ⟨[], ?_, by simp [numLinks, hl], fun _ _ => rfl⟩
    rw [List.append_nil]
    rfl
  | false =>
    rw [hl] at h
    obtain ⟨s₁, h₁, h₂⟩ := bind_eq_ok_iff.1 h
    obtain ⟨i, htail, hi⟩ := exec_putRef
      (l := { l with pairs := l.pairs.push (ArcPair.ofEdge e) }) h₁
    obtain ⟨j, hhead, hj⟩ := exec_putRef
      (l := { l with
        adjacency := s₁.slots
        pairs := l.pairs.push (ArcPair.ofEdge e)
        written := l.written ++ [i] }) h₂
    refine ⟨[i] ++ [j], ?_, by simp [numLinks, hl], hi.append hj⟩
    simp only [Bool.false_eq_true, ↓reduceIte]
    rw [exec_bind htail, hhead, List.append_assoc]

/-- **The slots are filled** as a filling is, and two are written for each edge that is no loop. -/
theorem exec_putEdges (h : ArcTable.putEdges l.offsets ⟨l.adjacency, filled⟩ k es = .ok s) :
    ∃ slots, exec (putEdges filled k es) l = (.ok s.filled, { l with
        adjacency := s.slots
        pairs := l.pairs ++ (es.map ArcPair.ofEdge).toArray
        written := l.written ++ slots }) ∧
      slots.length = 2 * numLinks es ∧ OnlyAt slots l.adjacency s.slots := by
  induction es generalizing l filled k with
  | nil =>
    obtain rfl := Except.ok.inj h
    refine ⟨[], ?_, rfl, fun _ _ => rfl⟩
    simp only [List.append_nil, List.map_nil, Array.append_empty]
    rfl
  | cons e es ih =>
    obtain ⟨s₁, h₁, h₂⟩ := bind_eq_ok_iff.1 h
    obtain ⟨slots₁, hedge, hlength₁, honly₁⟩ := exec_putEdge h₁
    obtain ⟨slots₂, hrest, hlength₂, honly₂⟩ := ih (l := { l with
      adjacency := s₁.slots
      pairs := l.pairs.push (ArcPair.ofEdge e)
      written := l.written ++ slots₁ }) h₂
    refine ⟨slots₁ ++ slots₂, ?_, ?_, honly₁.append honly₂⟩
    · unfold putEdges
      rw [exec_bind hedge, hrest]
      simp
    · rw [List.length_append, hlength₁, hlength₂, numLinks_cons e es, numLinks_cons e []]
      simp only [numLinks, List.countP_nil]
      omega

/-! ## The whole build -/

theorem resized_empty {α : Type} (n : Nat) (x : α) : resized #[] n x = Array.replicate n x := by
  simp [resized]

/-- **The variables after a build** hold the table that gathering the rows gives, whatever they held
before.  Every slot but those that were written still holds the placeholder. -/
theorem exec_build {t : ArcTable} (h : ArcTable.build n edges = .ok t) (p : ArcRef)
    (l : LiveTable) : ∃ slots,
      exec (build p n edges) l = (.ok (), ⟨n, edges.size, t.offsets, t.adjacency, t.pairs,
        l.written ++ slots⟩) ∧ slots.length = 2 * numLinks edges.toList ∧
      OnlyAt slots (Array.replicate t.adjacency.size p) t.adjacency := by
  obtain ⟨full, hfull, ht⟩ := bind_eq_ok_iff.1 h
  obtain rfl := Except.ok.inj ht
  obtain rfl := size_of_addEdges hfull
  have hcount : countEdges (Array.replicate full.size 0) edges.toList = .ok (sizes full) := by
    have hsizes := countEdges_sizes (Array.replicate full.size #[]) 0 edges.toList
    rw [hfull] at hsizes
    simpa [sizes, Except.map] using hsizes
  have hstarts : (List.range' 1 full.size).foldlM (startAt (sizes full))
      (Array.replicate (full.size + 1) 0) = .ok (rowStarts full) := startsOf_sizes full
  have htotal : fetch (rowStarts full) full.size = .ok (sizes full).toList.sum := by
    rw [fetch_eq_ok_iff, getElem?_rowStarts (Nat.le_refl _), List.take_of_length_le (by simp)]
  obtain ⟨s, hs, hfills⟩ := (fills_free p full).putEdges hfull
  obtain ⟨slots, hput, hlength, honly⟩ := exec_putEdges (l := ⟨full.size, edges.size,
    rowStarts full, Array.replicate (sizes full).toList.sum p, #[], l.written⟩) hs
  rw [hfills.slots_eq_flatten] at hput honly
  refine ⟨slots, ?_, hlength, ?_⟩
  · unfold build
    rw [exec_bind (exec_modify _ l), exec_bind (exec_ofExcept hcount _),
      exec_bind (exec_modify _ _), exec_bind (exec_modify _ _)]
    simp only [resized_empty]
    rw [exec_bind (exec_startRows hstarts), exec_bind (exec_modify _ _),
      exec_bind (exec_get _), exec_bind (exec_ofExcept htotal _), exec_bind (exec_modify _ _),
      exec_bind (exec_modify _ _)]
    simp only [resized_empty]
    rw [exec_bind hput, offsets_ofRows]
    simp only [ofRows, Array.empty_append, ← Array.toList_map, Array.toArray_toList]
    rfl
  · rw [size_adjacency_ofRows]
    exact honly

/-- **A table is built afresh**, whatever the variables hold before.  If all edges but loops join
two of the `n` nodes, the build ends with the one table that lays them out, and writes every slot of
the references once. -/
theorem build_afresh (h : ∀ e ∈ edges, Placed n e) :
    ∃ t, ArcTable.build n edges = .ok t ∧ LaysOut n edges t ∧
      ∀ (p : ArcRef) (l : LiveTable), edges.size ≤ p.pair → ∃ slots,
        exec (build p n edges) l = (.ok (), ⟨n, edges.size, t.offsets, t.adjacency, t.pairs,
          l.written ++ slots⟩) ∧ slots.Perm (List.range t.adjacency.size) := by
  obtain ⟨t, hbuild, hlays⟩ := exists_laysOut h
  refine ⟨t, hbuild, hlays, ?_⟩
  intro p l hp
  obtain ⟨slots, hexec, hlength, honly⟩ := exec_build hbuild p l
  refine ⟨slots, hexec, ?_⟩
  -- a slot that was not written holds the placeholder, which is no arc of an edge
  have hsubset : List.range t.adjacency.size ⊆ slots := by
    intro i hi
    rw [List.mem_range] at hi
    by_contra hnot
    have hslot := honly i hnot
    rw [Array.getElem?_eq_getElem hi, Array.getElem?_replicate, if_pos hi] at hslot
    have hlt := hlays.pair_lt _ (Array.getElem_mem hi)
    rw [Option.some.inj hslot] at hlt
    omega
  refine ((List.nodup_range.subperm hsubset).perm_of_length_le ?_).symm
  rw [List.length_range, hlays.size_adjacency, hlength]

/-- Two edges between the same nodes, one that leads back to the first node, and a loop at a node
that does not exist. -/
def tangle : Array Edge := #[.idle 0 1 3 0, .idle 7 7 5 0, .idle 2 0 1 4, .idle 0 1 2 2]

/-- Variables that hold what no build would leave there. -/
def stale : LiveTable :=
  ⟨1, 5, #[4, 2, 8, 9, 9], #[⟨9, .reverse⟩, ⟨0, .forward⟩], #[⟨3, 3, 0, 6⟩], [6]⟩

theorem build_afresh_tangle : ∃ t slots, LaysOut 3 tangle t ∧
    exec (build ⟨4, .forward⟩ 3 tangle) stale =
      (.ok (), ⟨3, 4, t.offsets, t.adjacency, t.pairs, 6 :: slots⟩) ∧
    t.slice 0 = .ok [⟨0, .forward⟩, ⟨2, .reverse⟩, ⟨3, .forward⟩] ∧
    slots.Perm (List.range 6) := by
  have hplaced : ∀ e ∈ tangle, Placed 3 e := by
    unfold Placed
    decide
  obtain ⟨t, -, hlays, hall⟩ := build_afresh hplaced
  obtain ⟨slots, hexec, hperm⟩ := hall ⟨4, .forward⟩ stale (by decide)
  rw [hlays.size_adjacency] at hperm
  exact ⟨t, slots, hlays, hexec, hlays.slice_eq 0 (by decide), hperm⟩

end LiveTable

end MinCut
