/-
# Sums over a network

The sums over all edges and over all nodes of a network, as finite sums, so that they can be
split, compared and exchanged.

Key facts:
* `edgeSum_eq` and `nodeSum_eq` : the sums as sums over the numbers of edges and nodes;
* `edgeSum_change` and `nodeSum_change` : what a change of one term does to a sum;
* `nodeSum_netOutflow` : the net outflow of a set of nodes is what crosses its border.
-/
import Mathlib.Algebra.BigOperators.Fin
import Mathlib.Algebra.Order.BigOperators.Group.Finset
import Mathlib.Algebra.BigOperators.Ring.Finset
import Mathlib.Tactic.Ring
import MinCut.Network.Flow

namespace MinCut

/-- The sum along the entries of a list, as a sum over their positions. -/
theorem foldr_zipIdx_eq {α : Type} (l : List α) (f : Nat → α → Int) :
    l.zipIdx.foldr (fun p s => f p.2 p.1 + s) 0 = ∑ i : Fin l.length, f i l[i] := by
  have hfold : l.zipIdx.foldr (fun p s => f p.2 p.1 + s) 0 =
      (l.zipIdx.map fun p => f p.2 p.1).sum := by
    rw [List.sum_eq_foldr, List.foldr_map]
  rw [hfold, ← List.sum_ofFn]
  congr 1
  apply List.ext_getElem
  · simp
  · intro i h₁ h₂
    simp

namespace Network

variable {N : Network} {f g : Nat → Edge → Int} {p q : Nat → TerminalWeights → Int}

theorem edgeSum_eq (N : Network) (f : Nat → Edge → Int) :
    N.edgeSum f = ∑ k : Fin N.edges.size, f k N.edges[k.val] :=
  foldr_zipIdx_eq N.edges.toList f

theorem nodeSum_eq (N : Network) (p : Nat → TerminalWeights → Int) :
    N.nodeSum p = ∑ v : Fin N.terminals.size, p v N.terminals[v.val] :=
  foldr_zipIdx_eq N.terminals.toList p

/-! ## Comparing sums term by term -/

theorem edgeSum_congr (h : ∀ k e, N.edges[k]? = some e → f k e = g k e) :
    N.edgeSum f = N.edgeSum g := by
  rw [edgeSum_eq, edgeSum_eq]
  exact Finset.sum_congr rfl fun k _ => h k _ (Array.getElem?_eq_getElem k.isLt)

theorem nodeSum_congr (h : ∀ v t, N.terminals[v]? = some t → p v t = q v t) :
    N.nodeSum p = N.nodeSum q := by
  rw [nodeSum_eq, nodeSum_eq]
  exact Finset.sum_congr rfl fun v _ => h v _ (Array.getElem?_eq_getElem v.isLt)

theorem edgeSum_le (h : ∀ k e, N.edges[k]? = some e → f k e ≤ g k e) :
    N.edgeSum f ≤ N.edgeSum g := by
  rw [edgeSum_eq, edgeSum_eq]
  exact Finset.sum_le_sum fun k _ => h k _ (Array.getElem?_eq_getElem k.isLt)

theorem nodeSum_le (h : ∀ v t, N.terminals[v]? = some t → p v t ≤ q v t) :
    N.nodeSum p ≤ N.nodeSum q := by
  rw [nodeSum_eq, nodeSum_eq]
  exact Finset.sum_le_sum fun v _ => h v _ (Array.getElem?_eq_getElem v.isLt)

theorem edgeSum_nonneg (h : ∀ k e, N.edges[k]? = some e → 0 ≤ f k e) : 0 ≤ N.edgeSum f := by
  rw [edgeSum_eq]
  exact Finset.sum_nonneg fun k _ => h k _ (Array.getElem?_eq_getElem k.isLt)

theorem nodeSum_nonneg (h : ∀ v t, N.terminals[v]? = some t → 0 ≤ p v t) :
    0 ≤ N.nodeSum p := by
  rw [nodeSum_eq]
  exact Finset.sum_nonneg fun v _ => h v _ (Array.getElem?_eq_getElem v.isLt)

/-- A sum without negative terms that is zero has no positive term. -/
theorem edgeSum_eq_zero_iff (h : ∀ k e, N.edges[k]? = some e → 0 ≤ f k e) :
    N.edgeSum f = 0 ↔ ∀ k e, N.edges[k]? = some e → f k e = 0 := by
  rw [edgeSum_eq, Finset.sum_eq_zero_iff_of_nonneg fun (k : Fin N.edges.size) _ =>
    h k _ (Array.getElem?_eq_getElem k.isLt)]
  constructor
  · intro hz k e he
    obtain ⟨hk, rfl⟩ := Array.getElem?_eq_some_iff.1 he
    exact hz ⟨k, hk⟩ (Finset.mem_univ _)
  · intro hz k _
    exact hz k _ (Array.getElem?_eq_getElem k.isLt)

theorem nodeSum_eq_zero_iff (h : ∀ v t, N.terminals[v]? = some t → 0 ≤ p v t) :
    N.nodeSum p = 0 ↔ ∀ v t, N.terminals[v]? = some t → p v t = 0 := by
  rw [nodeSum_eq, Finset.sum_eq_zero_iff_of_nonneg fun (v : Fin N.terminals.size) _ =>
    h v _ (Array.getElem?_eq_getElem v.isLt)]
  constructor
  · intro hz v t ht
    obtain ⟨hv, rfl⟩ := Array.getElem?_eq_some_iff.1 ht
    exact hz ⟨v, hv⟩ (Finset.mem_univ _)
  · intro hz v _
    exact hz v _ (Array.getElem?_eq_getElem v.isLt)

/-! ## Adding and changing terms -/

theorem edgeSum_add (N : Network) (f g : Nat → Edge → Int) :
    N.edgeSum f + N.edgeSum g = N.edgeSum fun k e => f k e + g k e := by
  rw [edgeSum_eq, edgeSum_eq, edgeSum_eq, Finset.sum_add_distrib]

theorem nodeSum_add (N : Network) (p q : Nat → TerminalWeights → Int) :
    N.nodeSum p + N.nodeSum q = N.nodeSum fun v t => p v t + q v t := by
  rw [nodeSum_eq, nodeSum_eq, nodeSum_eq, Finset.sum_add_distrib]

/-- If one term of a sum changes, the sum changes by as much. -/
theorem edgeSum_change {k : Nat} {e : Edge} (hk : N.edges[k]? = some e)
    (h : ∀ j e, N.edges[j]? = some e → j ≠ k → g j e = f j e) :
    N.edgeSum g = N.edgeSum f + (g k e - f k e) := by
  obtain ⟨hlt, rfl⟩ := Array.getElem?_eq_some_iff.1 hk
  rw [edgeSum_eq, edgeSum_eq, ← sub_eq_iff_eq_add', ← Finset.sum_sub_distrib]
  refine Finset.sum_eq_single (⟨k, hlt⟩ : Fin N.edges.size) ?_
    (fun hn => absurd (Finset.mem_univ _) hn)
  intro j _ hj
  rw [h j _ (Array.getElem?_eq_getElem j.isLt) (fun hc => hj (Fin.ext hc)), sub_self]

theorem nodeSum_change {v : Nat} {t : TerminalWeights} (hv : N.terminals[v]? = some t)
    (h : ∀ u t, N.terminals[u]? = some t → u ≠ v → q u t = p u t) :
    N.nodeSum q = N.nodeSum p + (q v t - p v t) := by
  obtain ⟨hlt, rfl⟩ := Array.getElem?_eq_some_iff.1 hv
  rw [nodeSum_eq, nodeSum_eq, ← sub_eq_iff_eq_add', ← Finset.sum_sub_distrib]
  refine Finset.sum_eq_single (⟨v, hlt⟩ : Fin N.terminals.size) ?_
    (fun hn => absurd (Finset.mem_univ _) hn)
  intro u _ hu
  rw [h u _ (Array.getElem?_eq_getElem u.isLt) (fun hc => hu (Fin.ext hc)), sub_self]

/-! ## Net outflow -/

/-- The term of one node picks one value. -/
theorem sum_fin_ite {n a : Nat} (ha : a < n) (c : Nat → Int) :
    ∑ v : Fin n, (if a = (v : Nat) then c v else 0) = c a := by
  rw [Finset.sum_eq_single (⟨a, ha⟩ : Fin n)]
  · simp
  · intro v _ hv
    rw [if_neg fun hc => hv (Fin.ext hc.symm)]
  · exact fun hn => absurd (Finset.mem_univ _) hn

/-- **The net outflow of a weighted set of nodes** is collected edge by edge: an edge counts
with the weight of its tail less that of its head. -/
theorem nodeSum_netOutflow (hN : N.WellFormed) (along weight : Nat → Int) :
    (N.nodeSum fun v _ => weight v * N.netOutflow along v) =
      N.edgeSum fun k e => along k * (weight e.tail - weight e.head) := by
  rw [nodeSum_eq, edgeSum_eq]
  simp only [netOutflow, edgeSum_eq, Finset.mul_sum]
  rw [Finset.sum_comm]
  apply Finset.sum_congr rfl
  intro k _
  have htail : N.edges[k.val].tail < N.terminals.size := hN.tail_lt _ (Array.getElem_mem k.isLt)
  have hhead : N.edges[k.val].head < N.terminals.size := hN.head_lt _ (Array.getElem_mem k.isLt)
  calc ∑ v : Fin N.terminals.size, weight v *
        ((if N.edges[k.val].tail = (v : Nat) then along k else 0) -
          (if N.edges[k.val].head = (v : Nat) then along k else 0))
      = ∑ v : Fin N.terminals.size,
        ((if N.edges[k.val].tail = (v : Nat) then weight v * along k else 0) -
          (if N.edges[k.val].head = (v : Nat) then weight v * along k else 0)) := by
        apply Finset.sum_congr rfl
        intro v _
        split <;> split <;> ring
    _ = weight N.edges[k.val].tail * along k - weight N.edges[k.val].head * along k := by
        rw [Finset.sum_sub_distrib, sum_fin_ite htail fun v => weight v * along k,
          sum_fin_ite hhead fun v => weight v * along k]
    _ = along k * (weight N.edges[k.val].tail - weight N.edges[k.val].head) := by ring

end Network

end MinCut
