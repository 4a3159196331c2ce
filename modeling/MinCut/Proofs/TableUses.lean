/-
# The table in variables answers as the bench

A program that keeps an arc table in variables fails where the functions of the table fail, and what
it has written by then is what the bench keeps after a fault.  A build fails while it counts, before
it has touched the old table.  A push may fail with one residual capacity written, or with both.

The program looks up a row only within the references.  In a table that was built no row leads out
of them, and pushes move no row, so the bench may do without this check.

Key facts:
* `exec_build_of_error` and `exec_pushFlow` : what is written by a build that fails and by a push;
* `call_eq_bench` : one use;
* `inBounds_call` : what a call on the bench preserves;
* `transcript_uses` : all uses, by induction on the calls.
-/
import MinCut.ArcTable.Uses
import MinCut.Proofs.Rebuilding

namespace MinCut

/-- To write into an array what stands there changes nothing. -/
theorem setIfInBounds_self {α : Type} {xs : Array α} {k : Nat} {x : α} (h : xs[k]? = some x) :
    xs.setIfInBounds k x = xs := by
  obtain ⟨hlt, rfl⟩ := Array.getElem?_eq_some_iff.1 h
  simp [Array.setIfInBounds, hlt]

namespace ArcTable

variable {t t' : ArcTable} {edges : Array Edge} {q : ArcPair} {a : ArcRef} {r : Register}
variable {f : Fault} {n : Nat} {x : Int}

/-! ## Builds -/

theorem numPairs_of_build (h : build n edges = .ok t) : t.numPairs = edges.size := by
  obtain ⟨rows, -, ht⟩ := bind_eq_ok_iff.1 h
  obtain rfl := Except.ok.inj ht
  exact Array.size_map

/-- **A build fails** while the references are counted. -/
theorem build_eq_error_iff_countEdges : build n edges = .error f ↔
    countEdges (Array.replicate n 0) edges.toList = .error f := by
  have hcount := countEdges_sizes (Array.replicate n #[]) 0 edges.toList
  have hnone : sizes (Array.replicate n #[]) = Array.replicate n 0 := by simp [sizes]
  rw [hnone] at hcount
  rw [hcount, map_eq_error_iff, build]
  cases addEdges (Array.replicate n #[]) 0 edges.toList with
  | error f' => simp [bind, Except.bind]
  | ok rows => simp [bind, Except.bind, pure, Except.pure]

/-! ## Pushes until a fault -/

/-- Nothing is pushed along an arc that does not exist. -/
theorem pushUntilFault_of_size_le (h : t.pairs.size ≤ a.pair) : t.pushUntilFault r a x = t := by
  unfold pushUntilFault
  congr 1
  apply Array.ext_getElem?
  intro j
  rw [Array.getElem?_modify]
  by_cases hj : a.pair = j
  · subst hj
    simp [h]
  · rw [if_neg hj]

theorem pushUntilFault_of_getElem? (h : t.pairs[a.pair]? = some q) :
    t.pushUntilFault r a x =
      { t with pairs := t.pairs.setIfInBounds a.pair (q.pushUntilFault r a.direction x) } := by
  unfold pushUntilFault
  congr 1
  apply Array.ext_getElem?
  intro j
  rw [Array.getElem?_modify, Array.getElem?_setIfInBounds]
  by_cases hj : a.pair = j
  · subst hj
    obtain ⟨hlt, rfl⟩ := Array.getElem?_eq_some_iff.1 h
    simp [hlt]
  · rw [if_neg hj, if_neg hj]

/-- A push that succeeds is made to its end. -/
theorem pushUntilFault_eq_of_pushFlow (h : t.pushFlow r a x = .ok t') :
    t.pushUntilFault r a x = t' := by
  obtain ⟨q, hq, h⟩ := bind_eq_ok_iff.1 h
  obtain ⟨q', hpush, h⟩ := bind_eq_ok_iff.1 h
  rw [pushUntilFault_of_getElem? (fetch_eq_ok_iff.1 hq), ArcPair.pushUntilFault_eq hpush]
  split at h
  · cases h
  · exact Except.ok.inj h

/-! ## Rows within the references -/

/-- **No row leads out of the references**: it is the same to look up a row within them. -/
def InBounds (t : ArcTable) : Prop := ∀ u, t.slice u = t.around u

theorem inBounds_empty : InBounds empty := fun _ => rfl

/-- Rows stay within the references as long as neither is touched. -/
theorem InBounds.of_rows (h : t.InBounds) (hoffsets : t'.offsets = t.offsets)
    (hadjacency : t'.adjacency = t.adjacency) : t'.InBounds := by
  intro u
  have hu := h u
  unfold slice around at hu ⊢
  rw [hoffsets, hadjacency]
  exact hu

/-- In a table just built, a node has a row within the references, and nothing else has a row. -/
theorem inBounds_of_build (h : build n edges = .ok t) : t.InBounds := by
  obtain ⟨rows, -, ht⟩ := bind_eq_ok_iff.1 h
  obtain rfl := Except.ok.inj ht
  intro u
  by_cases hu : u < rows.size
  · rw [slice_ofRows _ hu, around_ofRows _ hu]
  · have hlast : fetch (ofRows rows (edges.map ArcPair.ofEdge)).offsets (u + 1) =
        .error (.outOfRange (u + 1) (rows.size + 1)) := by
      rw [offsets_ofRows, fetch_eq_error_iff, size_rowStarts]
      exact ⟨by omega, rfl⟩
    unfold slice around
    rw [hlast]
    rfl

end ArcTable

namespace LiveTable

open ArcTable

variable {α β : Type} {l l' : LiveTable} {edges : Array Edge} {n : Nat} {f : Fault}
variable {r : Register} {p : ArcRef} {c : Use}

/-! ## Steps that may fail -/

/-- Steps one after the other, whether the first of them fails or not. -/
theorem exec_bind_eq (m : Step α) (k : α → Step β) (l : LiveTable) : exec (m >>= k) l =
    match exec m l with
    | (.ok y, l') => exec (k y) l'
    | (.error f, l') => (.error f, l') := by
  cases h : exec m l with
  | mk x l' =>
    cases x with
    | ok y => exact exec_bind h
    | error f =>
      unfold exec at h ⊢
      rw [ExceptT.run_bind, StateT.run_bind]
      simp only [h, bind]
      rfl

theorem exec_pure (y : α) (l : LiveTable) : exec (pure y) l = (.ok y, l) := rfl

theorem exec_throw (f : Fault) (l : LiveTable) : exec (throw f : Step α) l = (.error f, l) := rfl

theorem exec_ofExcept_eq (x : Except Fault α) (l : LiveTable) : exec (ofExcept x) l = (x, l) := by
  cases x <;> rfl

/-- **A build that fails** has written nothing but the two counts. -/
theorem exec_build_of_error (h : ArcTable.build n edges = .error f) (p : ArcRef) (l : LiveTable) :
    exec (build p n edges) l = (.error f, { l with numNodes := n, numPairs := edges.size }) := by
  unfold build
  simp only [exec_bind_eq, exec_modify, exec_ofExcept_eq, build_eq_error_iff_countEdges.1 h]

/-- **A push** writes what is pushed until it fails. -/
theorem exec_pushFlow (r : Register) (a : ArcRef) (x : Int) (l : LiveTable) :
    exec (pushFlow r a x) l = ((l.table.pushFlow r a x).map fun _ => (),
      { l with pairs := (l.table.pushUntilFault r a x).pairs }) := by
  have hpairs : l.table.pairs = l.pairs := rfl
  unfold pushFlow writePair ArcTable.pushFlow
  simp only [exec_bind_eq, exec_get, exec_ofExcept_eq, exec_modify, hpairs]
  cases hp : fetch l.pairs a.pair with
  | error f =>
    rw [pushUntilFault_of_size_le (fetch_eq_error_iff.1 hp).1]
    rfl
  | ok p =>
    have hget : l.pairs[a.pair]? = some p := fetch_eq_ok_iff.1 hp
    rw [pushUntilFault_of_getElem? (t := l.table) hget]
    simp only [ArcPair.pushUntilFault, ArcPair.push, hpairs, bind, Except.bind]
    cases hq : p.take r a.direction x with
    | error f => simp only [setIfInBounds_self hget, Except.map]
    | ok q =>
      cases hg : q.give r a.direction.opposite x with
      | error f => simp only [hg, Except.map]
      | ok q' =>
        -- both residual capacities are written before it is asked whether there was enough
        simp only [hg, Array.setIfInBounds_setIfInBounds]
        by_cases hneg : q'.residual a.direction < 0
        · simp only [if_pos hneg, exec_throw, Except.map]
        · simp only [if_neg hneg, exec_pure]
          rfl

/-- **A read** answers by the table alone and writes nothing. -/
theorem exec_read (g : ArcTable → Except Fault α) (k : α → β) (l : LiveTable) :
    exec (do return k (← ofExcept (g (← get).table))) l = ((g l.table).map k, l) := by
  simp only [exec_bind_eq, exec_get, exec_ofExcept_eq]
  cases g l.table <;> rfl

/-! ## Uses -/

theorem call_around (u : Nat) (es : Array Edge) (l : LiveTable) :
    call r p l ⟨.around u, es⟩ = ((describeRow l.table u).map .arcs, l) :=
  exec_read (describeRow · u) ArcBench.Reply.arcs l

/-- **One use** of the variables is a call on a bench with the table that stands in them. -/
theorem call_eq_bench (hrow : ∀ u, c.call = .around u → l.table.slice u = l.table.around u) :
    (call r p l c).1 = (ArcBench.call r ⟨l.table, c.edges⟩ c.call).1 ∧
      (call r p l c).2.table = (ArcBench.call r ⟨l.table, c.edges⟩ c.call).2.table := by
  obtain ⟨c, es⟩ := c
  cases c with
  | build n edges =>
    simp only [call, perform, ArcBench.call, ArcBench.perform, exec_bind_eq]
    cases hbuild : ArcTable.build n edges with
    | error f =>
      rw [exec_build_of_error hbuild]
      exact ⟨rfl, rfl⟩
    | ok t =>
      obtain ⟨slots, hexec, -⟩ := exec_build hbuild p l
      rw [hexec]
      obtain rfl := numNodes_of_build hbuild
      rw [← numPairs_of_build hbuild]
      exact ⟨rfl, rfl⟩
  | around u =>
    rw [call_around, describeRow, hrow u rfl]
    simp only [ArcBench.call, ArcBench.perform]
    cases l.table.around u with
    | error f => exact ⟨rfl, rfl⟩
    | ok as =>
      simp only [bind, Except.bind]
      cases as.mapM (ArcBench.describeArc l.table) <;> exact ⟨rfl, rfl⟩
  | sister a => exact ⟨rfl, rfl⟩
  | head a =>
    simp only [call, perform, exec_read (·.head a), ArcBench.call, ArcBench.perform]
    cases l.table.head a <;> exact ⟨rfl, rfl⟩
  | residual a =>
    simp only [call, perform, exec_read (·.residual a), ArcBench.call, ArcBench.perform]
    cases l.table.residual a <;> exact ⟨rfl, rfl⟩
  | pushFlow a x =>
    simp only [call, perform, exec_bind_eq, exec_pushFlow, ArcBench.call, ArcBench.perform]
    cases hpush : l.table.pushFlow r a x with
    | error f => exact ⟨rfl, rfl⟩
    | ok t =>
      obtain rfl := pushUntilFault_eq_of_pushFlow hpush
      exact ⟨rfl, rfl⟩
  | takeFlows =>
    simp only [call, perform, exec_read (·.flowsOn r es), ArcBench.call, ArcBench.perform]
    cases l.table.flowsOn r es <;> exact ⟨rfl, rfl⟩
  | pairs => exact ⟨rfl, rfl⟩

/-- **One use** answers and writes by the table alone: the counts and what was written to before
do not matter. -/
theorem call_alike (h : l.table = l'.table) (c : Use) :
    (call r p l c).1 = (call r p l' c).1 ∧ (call r p l c).2.table = (call r p l' c).2.table := by
  obtain ⟨c, es⟩ := c
  by_cases haround : ∃ u, c = .around u
  · -- the table may be any, so a row of it may lead out of the references
    obtain ⟨u, rfl⟩ := haround
    rw [call_around, call_around, h]
    exact ⟨rfl, rfl⟩
  · have hrow : ∀ {l : LiveTable} u, c = .around u → l.table.slice u = l.table.around u :=
      fun u hu => absurd ⟨u, hu⟩ haround
    obtain ⟨hreply, htable⟩ := call_eq_bench (r := r) (p := p) (l := l) (c := ⟨c, es⟩) hrow
    obtain ⟨hreply', htable'⟩ := call_eq_bench (r := r) (p := p) (l := l') (c := ⟨c, es⟩) hrow
    rw [hreply, hreply', htable, htable', h]
    exact ⟨rfl, rfl⟩

/-- **Uses of the same table** in other variables are answered alike. -/
theorem transcript_alike (h : l.table = l'.table) (cs : List Use) :
    (transcript (call r p) l cs).1 = (transcript (call r p) l' cs).1 ∧
      (transcript (call r p) l cs).2.table = (transcript (call r p) l' cs).2.table := by
  refine transcript_related (R := fun l l' : LiveTable => l.table = l'.table) ?_ h cs
  intro l l' c hl
  exact call_alike hl c

end LiveTable

namespace ArcBench

variable {r : Register} {p : ArcRef} {b : ArcBench} {l : LiveTable}

/-! ## Calls on a bench -/

/-- **A call on a bench** leaves no row that leads out of the references. -/
theorem inBounds_call (h : b.table.InBounds) (c : Call) : (b.call r c).2.table.InBounds := by
  cases c with
  | build n edges =>
    simp only [call, perform]
    cases hbuild : ArcTable.build n edges with
    | error f => exact h
    | ok t => exact ArcTable.inBounds_of_build hbuild
  | around u =>
    simp only [call, perform]
    cases b.table.around u with
    | error f => exact h
    | ok as =>
      simp only [bind, Except.bind]
      cases as.mapM (describeArc b.table) <;> exact h
  | sister a => exact h
  | head a =>
    simp only [call, perform]
    cases b.table.head a <;> exact h
  | residual a =>
    simp only [call, perform]
    cases b.table.residual a <;> exact h
  | pushFlow a x =>
    simp only [call, perform]
    cases hpush : b.table.pushFlow r a x with
    | error f => exact h.of_rows rfl rfl
    | ok t =>
      obtain rfl := ArcTable.pushUntilFault_eq_of_pushFlow hpush
      exact h.of_rows rfl rfl
  | takeFlows =>
    simp only [call, perform]
    cases b.table.flowsOn r b.edges <;> exact h
  | pairs => exact h

/-- Calls on a bench are answered by the uses of its table in variables. -/
theorem transcript_uses (h : b.table.InBounds) (hl : l.table = b.table) (cs : List Call) :
    (transcript (LiveTable.call r p) l (uses r b cs)).1 = (transcript (call r) b cs).1 ∧
      (transcript (LiveTable.call r p) l (uses r b cs)).2.table =
        (transcript (call r) b cs).2.table := by
  induction cs generalizing b l with
  | nil => exact ⟨rfl, hl⟩
  | cons c cs ih =>
    have hrow : ∀ u, c = .around u → l.table.slice u = l.table.around u := by
      intro u _
      rw [hl]
      exact h u
    obtain ⟨hreply, htable⟩ := LiveTable.call_eq_bench (r := r) (p := p) (c := ⟨c, b.edges⟩) hrow
    rw [hl] at hreply htable
    obtain ⟨hreplies, hlast⟩ := ih (inBounds_call h c) htable
    refine ⟨?_, hlast⟩
    simp only [uses, transcript, hreply, hreplies]

/-- **The variables answer as the bench does**, from the table without nodes on. -/
theorem replies_eq (r : Register) (p : ArcRef) (cs : List Call) :
    replies r cs = (transcript (LiveTable.call r p) .empty (uses r .empty cs)).1 :=
  (transcript_uses ArcTable.inBounds_empty rfl cs).1.symm

end ArcBench

end MinCut
