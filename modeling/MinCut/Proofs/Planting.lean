/-
# The forest at the start of a search

A search plants its forest afresh: every node with an excess is a root, active, and all other
nodes are free.  Nothing hangs on anything yet and every node of a tree waits to grow, so the
forest is ready for the loop, whatever the residual network.

Key facts:
* `activateRoots_spec` : exactly the roots wait, by induction on the nodes;
* `ofExcess_spec` : the planted forest is ready;
* `audit_eq` : a sound forest without orphans passes the audit.
-/
import MinCut.Forest.Audit
import MinCut.Proofs.Choice

namespace MinCut

namespace Forest

variable {R : Residual} {f : Forest} {u v : Nat} {l m : Label}

/-! ## Queueing the roots -/

/-- Queueing those of a list of nodes that have a label. -/
theorem activateRoots_aux {labels : Array (Option Label)} {q : ActiveQueue} {us : List Nat}
    (hq : q.Tracks labels.size none) (hus : ∀ u ∈ us, u < labels.size) :
    ∃ q', us.foldlM (fun q u => match labels[u]? with
        | some (some _) => q.push u
        | _ => .ok q) q = .ok q' ∧ q'.Tracks labels.size none ∧
      ∀ v, v ∈ q'.waiting ↔ v ∈ q.waiting ∨ v ∈ us ∧ ∃ l, labels[v]? = some (some l) := by
  induction us generalizing q with
  | nil => exact ⟨q, rfl, hq, fun v => by simp⟩
  | cons u us ih =>
    have hu := hus u List.mem_cons_self
    have hus' : ∀ w ∈ us, w < labels.size := fun w hw => hus w (List.mem_cons_of_mem u hw)
    rw [List.foldlM_cons]
    cases hl : labels[u] with
    | none =>
      have hget : labels[u]? = some none := by rw [Array.getElem?_eq_getElem hu, hl]
      obtain ⟨q', hok, ht, hmem⟩ := ih hq hus'
      refine ⟨q', ?_, ht, ?_⟩
      · rw [hget]
        exact hok
      · intro v
        rw [hmem, List.mem_cons]
        by_cases hvu : v = u
        · subst hvu
          simp [hget]
        · simp [hvu]
    | some l =>
      have hget : labels[u]? = some (some l) := by rw [Array.getElem?_eq_getElem hu, hl]
      obtain ⟨q₁, hpush, ht₁, hmem₁⟩ := hq.push_ok hu
      obtain ⟨q', hok, ht, hmem⟩ := ih ht₁ hus'
      refine ⟨q', ?_, ht, ?_⟩
      · rw [hget]
        simp only [hpush, bind, Except.bind]
        exact hok
      · intro v
        rw [hmem, hmem₁, List.mem_cons]
        by_cases hvu : v = u
        · subst hvu
          simp [hget]
        · simp [hvu]

/-- **Exactly the roots wait** at the start of a search. -/
theorem activateRoots_spec (labels : Array (Option Label)) :
    ∃ q, activateRoots labels = .ok q ∧ q.Tracks labels.size none ∧
      ∀ v, v ∈ q.waiting ↔ ∃ l, labels[v]? = some (some l) := by
  have hlt : ∀ u ∈ List.range labels.size, u < labels.size := fun u hu => List.mem_range.1 hu
  obtain ⟨q, hok, ht, hmem⟩ :=
    activateRoots_aux (ActiveQueue.tracks_ofSize labels.size) hlt
  refine ⟨q, hok, ht, ?_⟩
  intro v
  rw [hmem]
  simp only [ActiveQueue.waiting_ofSize, List.not_mem_nil, false_or, List.mem_range,
    and_iff_right_iff_imp]
  rintro ⟨l, hl⟩
  exact (Array.getElem?_eq_some_iff.1 hl).1

/-! ## The planted forest -/

/-- The label of a node at the start is that of a root, on the side of its excess. -/
theorem rootLabel_eq_some {x : Int} (h : rootLabel x = some l) :
    l.parent = .root ∧ l.stamp = 0 ∧ l.depth = 1 ∧
      (l.side = .source ∧ 0 < x ∨ l.side = .sink ∧ x < 0) := by
  unfold rootLabel at h
  split at h
  · cases h
  · split at h
    · cases h
      exact ⟨rfl, rfl, rfl, Or.inr ⟨rfl, ‹_›⟩⟩
    · cases h
      exact ⟨rfl, rfl, rfl, Or.inl ⟨rfl, by omega⟩⟩

/-- **The planted forest** is ready for the loop. -/
theorem ofExcess_spec (R : Residual) :
    ∃ f, ofExcess R.excess = .ok f ∧ f.Ready R none ∧ f.labels.size = R.excess.size := by
  obtain ⟨q, hq, ht, hmem⟩ := activateRoots_spec (R.excess.map rootLabel)
  refine ⟨⟨R.excess.map rootLabel, q, .empty, 0⟩, by
    simp only [ofExcess, hq, bind, Except.bind, pure, Except.pure], ?_, by simp⟩
  have hlabel : ∀ u, label ⟨R.excess.map rootLabel, q, .empty, 0⟩ u = rootLabel (R.excessAt u) := by
    intro u
    cases hu : R.excess[u]? with
    | none => simp [label, Residual.excessAt, hu, rootLabel]
    | some x => simp [label, Residual.excessAt, hu]
  have hroot : ∀ {u l}, label ⟨R.excess.map rootLabel, q, .empty, 0⟩ u = some l →
      l.parent = .root ∧ l.stamp = 0 ∧ l.depth = 1 ∧
        (l.side = .source ∧ 0 < R.excessAt u ∨ l.side = .sink ∧ R.excessAt u < 0) := by
    intro u l hl
    rw [hlabel] at hl
    exact rootLabel_eq_some hl
  have hnvia : ∀ {u l a}, label ⟨R.excess.map rootLabel, q, .empty, 0⟩ u = some l →
      l.parent ≠ .via a := by
    intro u l a hl hp
    rw [(hroot hl).1] at hp
    cases hp
  have hsettled : Settled ⟨R.excess.map rootLabel, q, .empty, 0⟩ := by
    intro u l hl hp
    rw [(hroot hl).1] at hp
    cases hp
  refine ⟨⟨by simp, ?_, ?_, ?_⟩, ⟨?_, ?_, ?_, ?_⟩, hsettled, hsettled.listed rfl, ht, ?_⟩
  · intro u hu
    rw [hlabel]
    unfold rootLabel
    rw [if_neg hu]
    split
    · exact ⟨_, rfl, rfl⟩
    · exact ⟨_, rfl, rfl⟩
  · intro u l hl _
    exact (hroot hl).2.2.2
  · intro u l a hl hp
    exact absurd hp (hnvia hl)
  · intro u l a v m hl hp
    exact absurd hp (hnvia hl)
  · intro u l hl
    rw [(hroot hl).2.2.1]
    exact Nat.one_pos
  · intro u l hl _
    exact (hroot hl).2.2.1
  · intro u l hl
    exact Nat.le_of_eq (hroot hl).2.1
  · -- a node of a tree waits, and a free one is exhausted
    intro u hu _
    apply exhausted_of_free
    cases hl : label ⟨R.excess.map rootLabel, q, .empty, 0⟩ u with
    | none => rfl
    | some l => exact absurd ((hmem u).2 ⟨l, getElem?_labels hl⟩) hu

/-! ## The audit -/

/-- A label of a sound forest without orphans passes the audit. -/
theorem auditLabel_eq (hs : f.Sound R) (hset : f.Settled) (hu : f.label u = some l) :
    auditLabel R f u l = .ok () := by
  unfold auditLabel
  cases hp : l.parent with
  | orphan => exact absurd hp (hset u l hu)
  | root =>
    have hlt : u < R.excess.size := by
      rw [← hs.size_eq]
      exact lt_of_label hu
    have hfetch : fetch R.excess u = .ok (R.excessAt u) := by
      simp [fetch_of_lt hlt, Residual.excessAt, hlt]
    have hlabel : (rootLabel (R.excessAt u)).map Label.side = some l.side := by
      rcases hs.bound u l hu hp with ⟨hside, hx⟩ | ⟨hside, hx⟩
      · rw [rootLabel, if_neg (by omega), if_neg (by omega), hside]
        rfl
      · rw [rootLabel, if_neg (by omega), if_pos hx, hside]
        rfl
    simp only [hfetch, bind, Except.bind, pure, Except.pure]
    rw [if_pos hlabel]
  | via a =>
    obtain ⟨v, m, ha, hm, hside, hc⟩ := hs.hung u l a hu hp
    have hatt : m.isAttached = true := (Label.isAttached_iff m).2 (hset v m hm)
    simp only [ha.head_eq, fetch_labels_of_label hm, treeResidual_eq ha, bind, Except.bind, pure,
      Except.pure]
    rw [if_pos ⟨hatt, hside, hc⟩]

/-- The audit of the labels from `u` on. -/
theorem auditFrom_eq (hs : f.Sound R) (hset : f.Settled) {ls : List (Option Label)}
    (hls : ∀ (k : Nat) (o : Option Label), ls[k]? = some o → f.label (u + k) = o) :
    auditFrom R f u ls = .ok () := by
  induction ls generalizing u with
  | nil => rfl
  | cons o ls ih =>
    have hrest : auditFrom R f (u + 1) ls = .ok () := by
      apply ih
      intro k o hk
      rw [Nat.add_assoc, Nat.add_comm 1 k]
      exact hls (k + 1) o (by simpa using hk)
    cases o with
    | none => exact hrest
    | some l =>
      have hu : f.label u = some l := hls 0 (some l) rfl
      unfold auditFrom
      simp only [auditLabel_eq hs hset hu, bind, Except.bind]
      exact hrest

/-- **The audit** passes on a sound forest without orphans. -/
theorem audit_eq (hs : f.Sound R) (hset : f.Settled) : f.audit R = .ok () := by
  apply auditFrom_eq hs hset
  intro k o hk
  rw [Nat.zero_add]
  unfold label
  rw [← Array.getElem?_toList, hk]
  rfl

end Forest

end MinCut
