/-
# The queue of active nodes under the loop

A node is linked exactly as long as it waits in the queue or is held outside it, and no node
waits twice.  So a push that a mark refuses loses nothing: the node is waiting already, or it
is the held node, which is taken up again before any other.

Key facts:
* `Tracks.push_ok` : a push makes a node wait unless it is held;
* `Tracks.of_pop?` : the node taken up waits no longer;
* `Tracks.hold_ok` and `Tracks.admit_ok` : holding a node and letting it go.
-/
import MinCut.ActiveQueue

namespace MinCut

namespace ActiveQueue

variable {q q' : ActiveQueue} {n u : Nat} {held : Option Nat}

/-- The marks of the queue for `n` nodes tell which nodes wait and which one is held. -/
structure Tracks (q : ActiveQueue) (n : Nat) (held : Option Nat) : Prop where
  size_eq : q.linked.size = n
  nodup : q.waiting.Nodup
  linked_iff : ∀ u, q.linked[u]? = some true ↔ u ∈ q.waiting ∨ held = some u
  held_not_mem : ∀ u, held = some u → u ∉ q.waiting

/-- Every waiting node is a node. -/
theorem Tracks.lt_of_mem (h : q.Tracks n held) (hu : u ∈ q.waiting) : u < n := by
  have hl := (h.linked_iff u).2 (Or.inl hu)
  rw [← h.size_eq]
  exact (Array.getElem?_eq_some_iff.1 hl).1

/-- The held node is a node. -/
theorem Tracks.lt_of_held (h : q.Tracks n (some u)) : u < n := by
  have hl := (h.linked_iff u).2 (Or.inr rfl)
  rw [← h.size_eq]
  exact (Array.getElem?_eq_some_iff.1 hl).1

/-- The empty queue tracks its nodes. -/
theorem tracks_ofSize (n : Nat) : (ofSize n).Tracks n none where
  size_eq := by simp [ofSize]
  nodup := List.nodup_nil
  linked_iff u := by
    constructor
    · intro hl
      simp [ofSize, Array.getElem?_replicate] at hl
    · rintro (hw | hh)
      · simp at hw
      · simp at hh
  held_not_mem u h := by simp at h

/-- **A push** makes a node wait, unless it is the held one, and moves no other node. -/
theorem Tracks.push_ok (h : q.Tracks n held) (hu : u < n) :
    ∃ q', q.push u = .ok q' ∧ q'.Tracks n held ∧
      ∀ v, v ∈ q'.waiting ↔ v ∈ q.waiting ∨ v = u ∧ held ≠ some u := by
  have hlt : u < q.linked.size := by rw [h.size_eq]; exact hu
  unfold push
  simp only [fetch_of_lt hlt, bind, Except.bind, pure, Except.pure]
  cases hb : q.linked[u] with
  | true =>
    -- the node is marked already, so it waits or is held
    refine ⟨q, by simp, h, fun v => ?_⟩
    constructor
    · exact Or.inl
    · rintro (hv | ⟨rfl, hheld⟩)
      · exact hv
      · have hlinked := (h.linked_iff v).1 (by rw [Array.getElem?_eq_getElem hlt, hb])
        exact hlinked.resolve_right hheld
  | false =>
    -- an unmarked node neither waits nor is held, so it is queued once
    have hfree : ¬ (u ∈ q.waiting ∨ held = some u) := by
      rw [← h.linked_iff u, Array.getElem?_eq_getElem hlt, hb]
      simp
    obtain ⟨hmem, hheld⟩ := not_or.1 hfree
    refine ⟨⟨q.queue.push u, q.linked.setIfInBounds u true⟩, by simp, ?_, ?_⟩
    · have hw : (⟨q.queue.push u, q.linked.setIfInBounds u true⟩ : ActiveQueue).waiting =
          q.waiting ++ [u] := Fifo.toList_push q.queue u
      refine ⟨by simp [h.size_eq], ?_, fun v => ?_, fun v hv => ?_⟩
      · rw [hw]
        refine List.nodup_append.2 ⟨h.nodup, by simp, ?_⟩
        intro a ha b hb' hab
        obtain rfl : b = u := by simpa using hb'
        exact hmem (hab ▸ ha)
      · rw [hw]
        have hv := h.linked_iff v
        by_cases huv : u = v
        · subst huv
          simp [hlt]
        · simp [huv, hv, Ne.symm huv]
      · rw [hw, List.mem_append, List.mem_singleton]
        rintro (hv' | rfl)
        · exact h.held_not_mem v hv hv'
        · exact hheld hv
    · intro v
      show v ∈ (q.queue.push u).toList ↔ _
      rw [Fifo.toList_push, List.mem_append, List.mem_singleton]
      simp [waiting, hheld]

/-- Taking up a node removes its mark. -/
theorem linked_of_pop? (hp : q.pop? = some (u, q')) :
    q'.linked = q.linked.setIfInBounds u false := by
  unfold pop? at hp
  cases hq : q.queue.pop? with
  | none => simp [hq] at hp
  | some p =>
    simp only [hq, Option.some.injEq, Prod.mk.injEq] at hp
    rw [← hp.2, hp.1]

/-- The node that is taken up waits no longer, and all others stay as they are. -/
theorem Tracks.of_pop? (h : q.Tracks n none) (hp : q.pop? = some (u, q')) :
    q'.Tracks n none ∧ q.waiting = u :: q'.waiting ∧ u ∉ q'.waiting := by
  have hw := waiting_pop? hp
  have hnodup := h.nodup
  rw [hw, List.nodup_cons] at hnodup
  refine ⟨⟨?_, hnodup.2, fun v => ?_, fun v hv => by simp at hv⟩, hw, hnodup.1⟩
  · rw [linked_of_pop? hp, Array.size_setIfInBounds, h.size_eq]
  · have hv := h.linked_iff v
    rw [hw] at hv
    rw [linked_of_pop? hp, Array.getElem?_setIfInBounds]
    by_cases huv : u = v
    · subst huv
      have hlt : u < q.linked.size := by
        rw [h.size_eq]
        exact h.lt_of_mem (by rw [hw]; exact List.mem_cons_self)
      simp [hlt, hnodup.1]
    · simpa [huv, Ne.symm huv] using hv

/-- A queue from which no node can be taken up has none waiting. -/
theorem waiting_eq_nil_of_pop? (hp : q.pop? = none) : q.waiting = [] := by
  unfold pop? at hp
  cases hq : q.queue.pop? with
  | none => exact (Fifo.pop?_eq_none_iff q.queue).1 hq
  | some p => simp [hq] at hp

/-- Setting the mark of a node sets it. -/
theorem setLinked_ok (h : q.Tracks n held) (hu : u < n) (mark : Bool) :
    q.setLinked u mark = .ok { q with linked := q.linked.setIfInBounds u mark } := by
  have hlt : u < q.linked.size := by rw [h.size_eq]; exact hu
  simp only [setLinked, fetch_of_lt hlt, bind, Except.bind, pure, Except.pure]

/-- Holding a node that does not wait. -/
theorem Tracks.hold_ok (h : q.Tracks n none) (hu : u < n) (hw : u ∉ q.waiting) :
    ∃ q', q.setLinked u true = .ok q' ∧ q'.Tracks n (some u) ∧ q'.waiting = q.waiting := by
  have hlt : u < q.linked.size := by rw [h.size_eq]; exact hu
  refine ⟨_, setLinked_ok h hu true, ⟨by simp [h.size_eq], h.nodup, fun v => ?_, ?_⟩, rfl⟩
  · show (q.linked.setIfInBounds u true)[v]? = some true ↔ v ∈ q.waiting ∨ some u = some v
    have hv := h.linked_iff v
    rw [Array.getElem?_setIfInBounds]
    by_cases huv : u = v
    · subst huv
      simp [hlt]
    · simpa [huv] using hv
  · rintro v hv
    cases hv
    exact hw

/-- Letting the held node go. -/
theorem Tracks.admit_ok (h : q.Tracks n (some u)) :
    ∃ q', q.setLinked u false = .ok q' ∧ q'.Tracks n none ∧ q'.waiting = q.waiting := by
  have hu := h.lt_of_held
  have hlt : u < q.linked.size := by rw [h.size_eq]; exact hu
  refine ⟨_, setLinked_ok h hu false, ⟨by simp [h.size_eq], h.nodup, fun v => ?_,
    fun v hv => by simp at hv⟩, rfl⟩
  show (q.linked.setIfInBounds u false)[v]? = some true ↔ v ∈ q.waiting ∨ none = some v
  have hv := h.linked_iff v
  rw [Array.getElem?_setIfInBounds]
  by_cases huv : u = v
  · subst huv
    simp [hlt, h.held_not_mem u rfl]
  · simpa [huv] using hv

end ActiveQueue

end MinCut
