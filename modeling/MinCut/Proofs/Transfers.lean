/-
# Transfers keep the books

A table that was just built knows of each edge what either of its arcs can carry.  Transfers move
residual capacity between the two arcs and lose none of it: what the forward arc has lost in the end
is what was pushed along it less what was pushed back, and what the reverse arc has won is the same.
So the pairs of arcs are given by the sums of what was transferred, and the order is forgotten.

The residual capacities stay between zero and the two capacities of the edge together, so a register
that has room for these never overflows.

Key facts:
* `carrying` : the table of edges along which given amounts flow;
* `shift_carrying` and `pushFlow_carrying` : a single transfer;
* `pushAll_carrying` : a list of transfers, by induction on the list;
* `transfers_lossless` : transfers on a table just built.
-/
import MinCut.ArcTable.Transfers
import MinCut.Proofs.OverflowCheck
import MinCut.Proofs.Recording

namespace MinCut

/-! ## Sums of transfers -/

namespace Transfer

variable {p : Transfer} {ps qs : List Transfer} {a : ArcRef} {k : Nat}

/-- What a transfer adds to the flow along the edge `k`. -/
def change (p : Transfer) (k : Nat) : Int :=
  if p.arc.pair = k then
    match p.arc.direction with
    | .forward => p.amount
    | .reverse => -p.amount
  else 0

@[simp] theorem net_nil (k : Nat) : net [] k = 0 := rfl

/-- One transfer more. -/
theorem net_cons (p : Transfer) (ps : List Transfer) (k : Nat) :
    net (p :: ps) k = p.change k + net ps k := by
  obtain ⟨⟨j, d⟩, x⟩ := p
  by_cases hj : j = k
  · cases d <;> simp [net, total, change, hj] <;> omega
  · cases d <;> simp [net, total, change, hj]

/-- **The order does not matter** for what is pushed along an edge. -/
theorem net_perm (h : ps.Perm qs) : net ps = net qs := by
  funext k
  induction h with
  | nil => rfl
  | cons p _ ih => rw [net_cons, net_cons, ih]
  | swap p q ps =>
    rw [net_cons, net_cons, net_cons, net_cons]
    omega
  | trans _ _ ih₁ ih₂ => rw [ih₁, ih₂]

end Transfer

namespace ArcTable

variable {t t' : ArcTable} {n bits : Nat} {edges : Array Edge} {f : Nat → Int} {m c : Int}
variable {r r' : Register} {p : Transfer} {ps qs : List Transfer}

/-! ## Tables that carry a flow -/

/-- The table in which the amount `f k` flows along the edge `k`. -/
def carrying (t : ArcTable) (edges : Array Edge) (f : Nat → Int) : ArcTable :=
  { t with pairs := edges.mapIdx fun k e =>
      ⟨e.tail, e.head, e.capacity - f k, e.reverseCapacity + f k⟩ }

theorem getElem?_pairs_carrying {k : Nat} {e : Edge} (he : edges[k]? = some e) :
    (t.carrying edges f).pairs[k]? =
      some ⟨e.tail, e.head, e.capacity - f k, e.reverseCapacity + f k⟩ := by
  simp [carrying, he]

/-- Nothing flows in a table just built. -/
theorem carrying_of_build (h : build n edges = .ok t) : t.carrying edges (fun _ => 0) = t := by
  obtain ⟨rows, -, ht⟩ := bind_eq_ok_iff.1 h
  obtain rfl := Except.ok.inj ht
  unfold carrying
  congr 1
  apply Array.ext_getElem?
  intro k
  cases he : edges[k]? <;> simp [ArcPair.ofEdge, he]

/-- The amounts are within the capacities, which leave room below `m`. -/
structure Carries (edges : Array Edge) (f : Nat → Int) (m : Int) : Prop where
  le_capacity : ∀ (k : Nat) (e : Edge), edges[k]? = some e → f k ≤ e.capacity
  neg_le : ∀ (k : Nat) (e : Edge), edges[k]? = some e → -e.reverseCapacity ≤ f k
  pair_le : ∀ (k : Nat) (e : Edge), edges[k]? = some e → e.capacity + e.reverseCapacity ≤ m

/-- What an arc can carry besides what flows along its edge. -/
theorem capacity_carrying {k : Nat} {e : Edge} (he : edges[k]? = some e) :
    (t.carrying edges f).capacity ⟨k, .forward⟩ = e.capacity - f k ∧
      (t.carrying edges f).capacity ⟨k, .reverse⟩ = e.reverseCapacity + f k :=
  ⟨capacity_of_getElem? (getElem?_pairs_carrying he),
    capacity_of_getElem? (getElem?_pairs_carrying he)⟩

/-- An arc whose residual capacity can be read is one of an edge. -/
theorem exists_of_residual_carrying {a : ArcRef} (h : (t.carrying edges f).residual a = .ok c) :
    ∃ e u v, edges[a.pair]? = some e ∧ (t.carrying edges f).Leads a u v ∧
      (t.carrying edges f).capacity a = c := by
  obtain ⟨q, hq, hc⟩ := residual_eq_ok_iff.1 h
  obtain ⟨hk, -⟩ := Array.getElem?_eq_some_iff.1 hq
  have hk' : a.pair < edges.size := by simpa [carrying] using hk
  exact ⟨_, _, _, Array.getElem?_eq_getElem hk', ⟨q, hq, rfl, rfl⟩,
    (capacity_of_getElem? hq).trans hc⟩

/-- To move capacity to the sister of an arc is to let as much flow along the edge. -/
theorem shift_carrying (t : ArcTable) (edges : Array Edge) (f : Nat → Int) (p : Transfer) :
    (t.carrying edges f).shift p.arc p.amount =
      t.carrying edges fun k => f k + p.change k := by
  obtain ⟨⟨k, d⟩, x⟩ := p
  unfold shift carrying
  congr 1
  apply Array.ext_getElem?
  intro j
  rw [Array.getElem?_modify, Array.getElem?_mapIdx, Array.getElem?_mapIdx]
  by_cases hj : k = j
  · subst hj
    rw [if_pos rfl]
    cases edges[k]? with
    | none => rfl
    | some e =>
      cases d <;>
        simp [ArcPair.shift, ArcPair.withResidual, ArcPair.residual, Direction.opposite,
          Transfer.change] <;> omega
  · simp [Transfer.change, hj]

/-- A transfer that the arc can carry leaves the amounts within the capacities. -/
theorem Carries.add (h : Carries edges f m) {e : Edge} (he : edges[p.arc.pair]? = some e)
    (hx : 0 ≤ p.amount) (hle : p.amount ≤ (t.carrying edges f).capacity p.arc) :
    Carries edges (fun k => f k + p.change k) m := by
  obtain ⟨⟨k, d⟩, x⟩ := p
  simp only at he hx hle
  have hcap := h.le_capacity k e he
  have hneg := h.neg_le k e he
  obtain ⟨hforward, hreverse⟩ := capacity_carrying (t := t) (f := f) he
  -- only the edge of the arc has another amount
  have hsame : ∀ {j : Nat} {e' : Edge}, edges[j]? = some e' →
      k = j ∧ e' = e ∨ Transfer.change ⟨⟨k, d⟩, x⟩ j = 0 := by
    intro j e' he'
    by_cases hj : k = j
    · subst hj
      exact Or.inl ⟨rfl, Option.some.inj (he'.symm.trans he)⟩
    · exact Or.inr (if_neg hj)
  refine ⟨?_, ?_, h.pair_le⟩
  · intro j e' he'
    rcases hsame he' with ⟨rfl, rfl⟩ | hzero
    · cases d <;> simp only [Transfer.change, ↓reduceIte] <;> omega
    · rw [hzero, Int.add_zero]
      exact h.le_capacity j e' he'
  · intro j e' he'
    rcases hsame he' with ⟨rfl, rfl⟩ | hzero
    · cases d <;> simp only [Transfer.change, ↓reduceIte] <;> omega
    · rw [hzero, Int.add_zero]
      exact h.neg_le j e' he'

/-- **A transfer** that can be made is made, in any register with room, and the amounts stay within
the capacities. -/
theorem pushFlow_carrying (h : Carries edges f m)
    (hc : (t.carrying edges f).residual p.arc = .ok c) (hx : 0 ≤ p.amount) (hle : p.amount ≤ c) :
    Carries edges (fun k => f k + p.change k) m ∧ ∀ r : Register, r.Keeps m →
      (t.carrying edges f).pushFlow r p.arc p.amount =
        .ok (t.carrying edges fun k => f k + p.change k) := by
  obtain ⟨e, u, v, he, hlead, rfl⟩ := exists_of_residual_carrying hc
  refine ⟨h.add he hx hle, fun r hr => ?_⟩
  have hcap := h.le_capacity _ e he
  have hneg := h.neg_le _ e he
  have hroom := h.pair_le _ e he
  -- both residual capacities stay between zero and the sum of the pair
  have hsum : (t.carrying edges f).capacity p.arc + (t.carrying edges f).capacity p.arc.sister =
      e.capacity + e.reverseCapacity ∧ 0 ≤ (t.carrying edges f).capacity p.arc.sister := by
    obtain ⟨⟨k, d⟩, x⟩ := p
    obtain ⟨hforward, hreverse⟩ := capacity_carrying (t := t) (f := f) he
    cases d <;> simp only [ArcRef.sister, Direction.opposite] at * <;> omega
  rw [← shift_carrying]
  exact pushFlow_eq_shift hlead (hr _ (by omega) (by omega)) (hr _ (by omega) (by omega)) (by omega)

/-- **A list of transfers** that can be made is made, in any register with room: along each edge
flows what flowed there before and the net amount of the transfers. -/
theorem pushAll_carrying (hr : r.Keeps m) (h : Carries edges f m)
    (hps : (t.carrying edges f).CanPush r ps) :
    Carries edges (fun k => f k + Transfer.net ps k) m ∧ ∀ r' : Register, r'.Keeps m →
      (t.carrying edges f).pushAll r' ps =
        .ok (t.carrying edges fun k => f k + Transfer.net ps k) := by
  induction ps generalizing f with
  | nil =>
    simp only [Transfer.net_nil, Int.add_zero]
    exact ⟨h, fun _ _ => rfl⟩
  | cons p ps ih =>
    obtain ⟨⟨c, hc, hx, hle⟩, hrest⟩ := hps
    obtain ⟨hstep, hpush⟩ := pushFlow_carrying h hc hx hle
    obtain ⟨hend, hall⟩ := ih hstep (hrest _ (hpush r hr))
    simp only [Transfer.net_cons, ← Int.add_assoc]
    refine ⟨hend, fun r' hr' => ?_⟩
    rw [pushAll, List.foldlM_cons, hpush r' hr']
    exact hall r' hr'

/-- The first transfers of a list that can be made can be made. -/
theorem CanPush.take (h : t.CanPush r ps) (j : Nat) : t.CanPush r (ps.take j) := by
  induction ps generalizing t j with
  | nil => simpa using h
  | cons p ps ih =>
    cases j with
    | zero => trivial
    | succ j => exact ⟨h.1, fun t' ht' => ih (h.2 t' ht') j⟩

/-! ## Reading the flows -/

/-- What is written into the edges is what flows along them. -/
theorem flowsOn_carrying (hr : r.Keeps m) (h : Carries edges f m)
    (hcap : ∀ e ∈ edges, 0 ≤ e.capacity) (hrev : ∀ e ∈ edges, 0 ≤ e.reverseCapacity) :
    (t.carrying edges f).flowsOn r edges = .ok (edges.mapIdx fun k e => e.record (f k)) := by
  have hlen : edges.toList.length = (t.carrying edges f).pairs.toList.length := by simp [carrying]
  have hroom : ∀ (k : Nat) (e : Edge) (q : ArcPair), edges.toList[k]? = some e →
      (t.carrying edges f).pairs.toList[k]? = some q →
        -m ≤ e.capacity - q.forward ∧ e.capacity - q.forward ≤ m := by
    intro k e q he hq
    rw [Array.getElem?_toList] at he hq
    obtain rfl := Option.some.inj ((getElem?_pairs_carrying he).symm.trans hq)
    have hmem := Array.mem_of_getElem? he
    have h₁ := hcap e hmem
    have h₂ := hrev e hmem
    have h₃ := h.le_capacity k e he
    have h₄ := h.neg_le k e he
    have h₅ := h.pair_le k e he
    simp only
    omega
  simp only [flowsOn, withFlows_eq hr hlen hroom, bind, Except.bind, pure, Except.pure]
  congr 1
  apply Array.ext_getElem?
  intro k
  rw [List.getElem?_toArray, List.getElem?_zipWith, Array.getElem?_mapIdx, Array.getElem?_toList,
    Array.getElem?_toList]
  cases he : edges[k]? with
  | none => rfl
  | some e =>
    rw [getElem?_pairs_carrying he]
    simp

/-! ## Transfers on a table just built -/

/-- **The books after a list of transfers** on the table `t` of the given edges: `t'` is the table
that they leave, and `es` are the edges with the flows that are read off it. -/
structure Books (t : ArcTable) (edges : Array Edge) (ps : List Transfer) (t' : ArcTable)
    (es : Array Edge) : Prop where
  layout_eq : t'.offsets = t.offsets ∧ t'.adjacency = t.adjacency
  size_eq : t'.pairs.size = edges.size ∧ es.size = edges.size
  edge_eq : ∀ (k : Nat) (e : Edge), edges[k]? = some e →
    es[k]? = some { e with flow := Transfer.net ps k }
  pair_eq : ∀ (k : Nat) (e : Edge), edges[k]? = some e → t'.pairs[k]? =
    some ⟨e.tail, e.head, e.capacity - Transfer.net ps k, e.reverseCapacity + Transfer.net ps k⟩
  forward_mem : ∀ (k : Nat) (e : Edge) (q : ArcPair), edges[k]? = some e → t'.pairs[k]? = some q →
    0 ≤ q.forward ∧ q.forward ≤ e.capacity + e.reverseCapacity
  reverse_mem : ∀ (k : Nat) (e : Edge) (q : ArcPair), edges[k]? = some e → t'.pairs[k]? = some q →
    0 ≤ q.reverse ∧ q.reverse ≤ e.capacity + e.reverseCapacity

theorem books_carrying (h : Carries edges (Transfer.net ps) m) :
    Books t edges ps (t.carrying edges (Transfer.net ps))
      (edges.mapIdx fun k e => e.record (Transfer.net ps k)) := by
  have hbounds : ∀ (k : Nat) (e : Edge) (q : ArcPair), edges[k]? = some e →
      (t.carrying edges (Transfer.net ps)).pairs[k]? = some q →
        (0 ≤ q.forward ∧ q.forward ≤ e.capacity + e.reverseCapacity) ∧
          0 ≤ q.reverse ∧ q.reverse ≤ e.capacity + e.reverseCapacity := by
    intro k e q he hq
    obtain rfl := Option.some.inj ((getElem?_pairs_carrying he).symm.trans hq)
    have h₁ := h.le_capacity k e he
    have h₂ := h.neg_le k e he
    simp only
    omega
  refine ⟨⟨rfl, rfl⟩, by simp [carrying], ?_, fun k e he => getElem?_pairs_carrying he,
    fun k e q he hq => (hbounds k e q he hq).1, fun k e q he hq => (hbounds k e q he hq).2⟩
  intro k e he
  rw [Array.getElem?_mapIdx, he]
  rfl

/-- **Transfers lose nothing.**  At every moment of a list of transfers on a table just built, the
books tell the sums of what was transferred, in every register with room for the capacities of the
edges; one of these refuses every number outside the symmetric range.  Another order of the same
transfers leads to the same table, if they can be made in that order. -/
theorem transfers_lossless (hr : r.IsMachine bits) (hbuild : build n edges = .ok t)
    (hcap : ∀ e ∈ edges, 0 ≤ e.capacity) (hrev : ∀ e ∈ edges, 0 ≤ e.reverseCapacity)
    (hsum : ∀ e ∈ edges, e.capacity + e.reverseCapacity ≤ Register.limit bits)
    (hps : t.CanPush r ps) :
    (∀ j, ∃ t' es, Books t edges (ps.take j) t' es ∧ ∀ r' ∈ Register.compared bits,
      t.pushAll r' (ps.take j) = .ok t' ∧ t'.flowsOn r' edges = .ok es) ∧
    ∀ qs, ps.Perm qs → t.CanPush r qs → t.pushAll r qs = t.pushAll r ps := by
  have hidle : Carries edges (fun _ => 0) (Register.limit bits) := by
    refine ⟨?_, ?_, fun k e he => hsum e (Array.mem_of_getElem? he)⟩
    · exact fun k e he => hcap e (Array.mem_of_getElem? he)
    · intro k e he
      have hnonneg := hrev e (Array.mem_of_getElem? he)
      omega
  -- the table only depends on the sums of the transfers
  have hall : ∀ {qs : List Transfer}, t.CanPush r qs →
      Carries edges (Transfer.net qs) (Register.limit bits) ∧
        ∀ r' : Register, r'.Keeps (Register.limit bits) →
          t.pushAll r' qs = .ok (t.carrying edges (Transfer.net qs)) := by
    intro qs hqs
    rw [← carrying_of_build hbuild] at hqs
    obtain ⟨hcarries, hpush⟩ := pushAll_carrying hr.keeps hidle hqs
    rw [carrying_of_build hbuild] at hpush
    simp only [Int.zero_add] at hcarries hpush
    exact ⟨hcarries, hpush⟩
  constructor
  · intro j
    obtain ⟨hcarries, hpush⟩ := hall (hps.take j)
    refine ⟨_, _, books_carrying hcarries, fun r' hr' => ?_⟩
    have hkeeps := Register.keeps_of_mem_compared hr.1 hr'
    exact ⟨hpush r' hkeeps, flowsOn_carrying hkeeps hcarries hcap hrev⟩
  · intro qs hperm hqs
    rw [(hall hps).2 r hr.keeps, (hall hqs).2 r hr.keeps, Transfer.net_perm hperm]

/-- Two parallel edges, the first as wide as eight bits allow, and a loop between them. -/
def parallel : Array Edge := #[.idle 0 1 100 27, .idle 1 1 5 0, .idle 0 1 2 3]

/-- Transfers along both arcs of the first edge and along the loop. -/
def backAndForth : List Transfer :=
  [⟨⟨0, .forward⟩, 40⟩, ⟨⟨0, .reverse⟩, 60⟩, ⟨⟨1, .forward⟩, 5⟩, ⟨⟨0, .forward⟩, 60⟩]

/-- The same transfers in an order in which the forward arc of the first edge is used up on the way,
so that its sister then has all that the edge can carry. -/
def forthFirst : List Transfer :=
  [⟨⟨0, .forward⟩, 40⟩, ⟨⟨0, .forward⟩, 60⟩, ⟨⟨0, .reverse⟩, 60⟩, ⟨⟨1, .forward⟩, 5⟩]

theorem transfers_lossless_parallel : ∃ t t' es,
    build 2 parallel = .ok t ∧ t.CanPush (.signed 8) backAndForth ∧
      Books t parallel backAndForth t' es ∧
      t'.pairs = #[⟨0, 1, 60, 67⟩, ⟨1, 1, 0, 5⟩, ⟨0, 1, 2, 3⟩] ∧
      t.pushAll (.signed 8) forthFirst = .ok t' := by
  have hr : (Register.signed 8).IsMachine 8 := ⟨by decide, Or.inl rfl⟩
  have heval : (build 2 parallel).map (fun t =>
      (decide (t.CanPush (.signed 8) backAndForth) &&
        decide (t.CanPush (.signed 8) forthFirst))) = .ok true := by decide +kernel
  obtain ⟨t, ht, hcan⟩ := map_eq_ok_iff.1 heval
  simp only [Bool.and_eq_true, decide_eq_true_eq] at hcan
  obtain ⟨hcan, hcan'⟩ := hcan
  obtain ⟨hbooks, horder⟩ := transfers_lossless hr ht (by decide) (by decide) (by decide) hcan
  obtain ⟨t', es, hend, hpush⟩ := hbooks 4
  refine ⟨t, t', es, ht, hcan, hend, ?_, ?_⟩
  · apply Array.ext_getElem?
    intro k
    match k with
    | 0 => exact hend.pair_eq 0 _ rfl
    | 1 => exact hend.pair_eq 1 _ rfl
    | 2 => exact hend.pair_eq 2 _ rfl
    | k + 3 =>
      rw [Array.getElem?_eq_none (by rw [hend.size_eq.1]; simp [parallel])]
      rfl
  · rw [horder _ (by decide) hcan', ← (hpush (.signed 8) (by decide)).1]
    rfl

end ArcTable

end MinCut
