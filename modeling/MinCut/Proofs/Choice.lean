/-
# Choosing the node to grow

At the head of the loop no node waits for a parent, so a node that hangs on nothing is in
neither tree and can be passed over.  What is chosen is a node of a tree; if nothing is
chosen, every node of a tree is exhausted.

Key facts:
* `nextActive_spec` : taking up active nodes until one hangs on something;
* `Ready.letGo` : the held node is let go;
* `choose_spec` : the choice between the held node and the queue.
-/
import MinCut.Forest.Selection
import MinCut.Proofs.Growth

namespace MinCut

namespace Forest

variable {R : Residual} {f f' : Forest} {u : Nat} {l : Label} {held : Option Nat}

/-- The orphans in the list are the nodes that wait for a parent, each listed once. -/
structure Listed (f : Forest) : Prop where
  nodup : f.orphans.order.Nodup
  mem_iff : ∀ u, u ∈ f.orphans.order ↔ ∃ l, f.label u = some l ∧ l.parent = .orphan

theorem Listed.of_labels (h : f.Listed) (hl : f'.labels = f.labels)
    (ho : f'.orphans = f.orphans) : f'.Listed where
  nodup := by rw [ho]; exact h.nodup
  mem_iff u := by rw [ho, label_congr hl]; exact h.mem_iff u

/-- A node that loses its parent joins the list. -/
theorem Listed.enlist (h : f.Listed) (hu : f.label u = some l) (hp : l.parent ≠ .orphan)
    (hlabel : ∀ w, f'.label w = if u = w then some l.orphaned else f.label w)
    (hperm : f'.orphans.order.Perm (u :: f.orphans.order)) : f'.Listed := by
  have hnot : u ∉ f.orphans.order := by
    intro hmem
    obtain ⟨k, hk, hk'⟩ := (h.mem_iff u).1 hmem
    rw [hu] at hk
    cases hk
    exact hp hk'
  constructor
  · exact hperm.nodup_iff.2 (List.nodup_cons.2 ⟨hnot, h.nodup⟩)
  · intro w
    rw [hperm.mem_iff, List.mem_cons, h.mem_iff, hlabel]
    by_cases huw : u = w
    · subst huw
      simp [Label.orphaned]
    · simp [huw, Ne.symm huw]

/-- If no node waits for a parent, none is listed. -/
theorem Listed.order_eq_nil (h : f.Listed) (hs : f.Settled) : f.orphans.order = [] := by
  apply List.eq_nil_iff_forall_not_mem.2
  intro u hu
  obtain ⟨l, hl, hp⟩ := (h.mem_iff u).1 hu
  exact hs u l hl hp

/-- If no orphan is listed, no node waits for a parent. -/
theorem Listed.settled (h : f.Listed) (ho : f.orphans.order = []) : f.Settled := by
  intro u l hl hp
  have hmem := (h.mem_iff u).2 ⟨l, hl, hp⟩
  rw [ho] at hmem
  simp at hmem

/-- If no orphan is listed and no node waits for a parent, the list is right. -/
theorem Settled.listed (hs : f.Settled) (ho : f.orphans.order = []) : f.Listed := by
  constructor
  · rw [ho]
    exact List.nodup_nil
  · intro u
    rw [ho]
    constructor
    · intro hu
      cases hu
    · rintro ⟨l, hl, hp⟩
      exact absurd hp (hs u l hl)

/-- **The forest at the head of the loop.** -/
structure Ready (R : Residual) (held : Option Nat) (f : Forest) : Prop where
  sound : f.Sound R
  ordered : f.Ordered R.arcs
  settled : f.Settled
  listed : f.Listed
  tracks : f.active.Tracks f.labels.size held
  watched : f.Watched R held

/-- Whether a node hangs on something can be read. -/
theorem isAttached_eq (h : u < f.labels.size) :
    f.isAttached u = .ok ((f.label u).any Label.isAttached) := by
  unfold isAttached
  simp only [fetch_labels h, bind, Except.bind, pure, Except.pure]
  cases f.label u <;> rfl

/-- A node that hangs on something is in a tree. -/
theorem exists_label_of_isAttached (h : (f.label u).any Label.isAttached = true) :
    ∃ l, f.label u = some l := by
  cases hl : f.label u with
  | none =>
    rw [hl] at h
    cases h
  | some l => exact ⟨l, rfl⟩

/-- A node that hangs on nothing is free, if no node waits for a parent. -/
theorem Settled.label_eq_none (hs : f.Settled) (h : (f.label u).any Label.isAttached = false) :
    f.label u = none := by
  cases hl : f.label u with
  | none => rfl
  | some l =>
    rw [hl] at h
    have hp := hs u l hl
    rw [← Label.isAttached_iff] at hp
    simp [hp] at h

/-- A free node is exhausted. -/
theorem exhausted_of_free (h : f.label u = none) : f.Exhausted R u := by
  intro l a v hl
  rw [h] at hl
  cases hl

/-- A node that is free need not be spared. -/
theorem Watched.of_free (h : f.Watched R (some u)) (hu : f.label u = none) : f.Watched R none := by
  intro v hv _
  by_cases hvu : v = u
  · subst hvu
    exact exhausted_of_free hu
  · exact h v hv fun hc => hvu (by simpa using hc.symm)

/-- What is known of an outcome of a choice. -/
def ChoiceResult (R : Residual) (f : Forest) : Option Nat → Prop
  | none => f.active.waiting = [] ∧ f.active.Tracks f.labels.size none ∧ f.Watched R none
  | some i => ∃ l, f.Scanning R i l

/-- What a choice leaves behind, apart from the queue. -/
structure Chosen (f f' : Forest) : Prop where
  labels_eq : f'.labels = f.labels
  clock_eq : f'.clock = f.clock
  orphans_eq : f'.orphans = f.orphans

/-- A queue in which the same nodes wait leaves the potential. -/
theorem potential_of_waiting_eq {q : ActiveQueue} (hw : q.waiting = f.active.waiting) :
    potential { f with active := q } = f.potential := by
  unfold potential openNodes
  show (Finset.filter (fun u => f.label u = none ∨ u ∈ q.waiting) _).card + _ = _
  rw [hw]
  rfl

/-- Letting a node wait no longer does not raise the potential, and lowers it if the node is in
a tree. -/
theorem potential_of_waiting_cons {q : ActiveQueue} (hu : u < f.labels.size)
    (hw : f.active.waiting = u :: q.waiting) (hnot : u ∉ q.waiting) :
    potential { f with active := q } ≤ f.potential ∧
      (f.label u ≠ none → potential { f with active := q } < f.potential) := by
  have hext : f.Extends { f with active := q } := fun w l hl => ⟨l, hl, rfl⟩
  have hwait : ∀ w, w ∈ q.waiting → w ∈ f.active.waiting ∨ f.label w = none :=
    fun w hw' => Or.inl (by rw [hw]; exact List.mem_cons_of_mem u hw')
  refine ⟨hext.potential_le rfl hwait, ?_⟩
  intro hlabel
  -- the node is open no longer, since it is neither free nor waiting
  have hsub : openNodes { f with active := q } ⊂ f.openNodes := by
    refine Finset.ssubset_iff_of_subset (hext.openNodes_subset rfl hwait) |>.2 ⟨u, ?_, ?_⟩
    · simp only [openNodes, Finset.mem_filter, Finset.mem_range]
      exact ⟨hu, Or.inr (by rw [hw]; exact List.mem_cons_self)⟩
    · simp only [openNodes, Finset.mem_filter, Finset.mem_range]
      rintro ⟨-, hfree | hmem⟩
      · exact hlabel hfree
      · exact hnot hmem
  have hcard := Finset.card_lt_card hsub
  show _ + f.freeNodes.card < _ + f.freeNodes.card
  omega

/-- **Taking up active nodes** until one hangs on something. -/
theorem nextActive_spec (hs : f.Sound R) (ho : f.Ordered R.arcs) (hset : f.Settled)
    (ht : f.active.Tracks f.labels.size none) (hw : f.Watched R none) :
    ∃ o f', EndsWithin f.active.waiting.length f.nextActive (o, f') ∧ f.Chosen f' ∧
      f'.ChoiceResult R o ∧ f'.potential + o.toList.length ≤ f.potential := by
  induction hn : f.active.waiting.length generalizing f with
  | zero =>
    have hnil : f.active.waiting = [] := List.eq_nil_of_length_eq_zero hn
    have hpop : f.active.pop? = none := by
      cases hp : f.active.pop? with
      | none => rfl
      | some p =>
        have hcons := ActiveQueue.waiting_pop? (r := p.2) (u := p.1) hp
        rw [hnil] at hcons
        cases hcons
    refine ⟨none, f, fun k _ => ?_, ⟨rfl, rfl, rfl⟩, ⟨hnil, ht, hw⟩, by simp⟩
    unfold nextActive
    simp only [hpop, pure, Except.pure]
  | succ n ih =>
    cases hp : f.active.pop? with
    | none =>
      have hnil := ActiveQueue.waiting_eq_nil_of_pop? hp
      rw [hnil] at hn
      cases hn
    | some p =>
      obtain ⟨u, q⟩ := p
      obtain ⟨htq, hcons, hnot⟩ := ht.of_pop? hp
      have hlen : q.waiting.length = n := by
        rw [hcons] at hn
        exact Nat.succ.inj hn
      have hu : u < f.labels.size := ht.lt_of_mem (by rw [hcons]; exact List.mem_cons_self)
      obtain ⟨hle, hlt⟩ := potential_of_waiting_cons (f := f) (q := q) hu hcons hnot
      -- every node but `u` waits exactly if it did before
      have hwq : Watched R { f with active := q } (some u) := by
        intro v hv hvu
        have hne : v ≠ u := fun hc => hvu (by rw [hc])
        exact (hw v (by rw [hcons]; simp [hne, show v ∉ q.waiting from hv]) (by simp)).of_labels rfl
      have hread := isAttached_eq (f := { f with active := q }) (u := u) hu
      cases hatt : (label { f with active := q } u).any Label.isAttached with
      | true =>
        obtain ⟨l, hl⟩ := exists_label_of_isAttached (f := f) hatt
        refine ⟨some u, { f with active := q }, fun k _ => ?_, ⟨rfl, rfl, rfl⟩, ⟨l,
          hs.of_labels rfl, ho.of_labels rfl (Nat.le_refl _), hset.of_labels rfl, htq, hwq, hl,
          hnot⟩, ?_⟩
        · unfold nextActive
          simp only [hp, hread, hatt, bind, Except.bind, pure, Except.pure, ↓reduceIte]
        · have hlt' := hlt (by rw [hl]; simp)
          simp only [Option.toList_some, List.length_singleton]
          omega
      | false =>
        obtain ⟨o, f', hok, hch, hres, hle'⟩ := ih (f := { f with active := q })
          (hs.of_labels rfl) (ho.of_labels rfl (Nat.le_refl _)) (hset.of_labels rfl) htq
          (hwq.of_free (hset.label_eq_none hatt)) hlen
        refine ⟨o, f', hok.step fun k hrest => ?_, ⟨hch.labels_eq, hch.clock_eq, hch.orphans_eq⟩,
          hres, Nat.le_trans hle' hle⟩
        unfold nextActive
        simp only [hp, hread, hatt, hrest, bind, Except.bind, Bool.false_eq_true, ↓reduceIte]

/-- **Letting the held node go** takes its mark away and nothing else. -/
theorem Ready.letGo (h : f.Ready R (some u)) :
    ∃ q, f.mark u false = .ok { f with active := q } ∧ q.Tracks f.labels.size none ∧
      q.waiting = f.active.waiting ∧ Watched R { f with active := q } (some u) := by
  obtain ⟨q, hq, htq, hwq⟩ := h.tracks.admit_ok
  refine ⟨q, ?_, htq, hwq, ?_⟩
  · simp only [mark, hq, bind, Except.bind, pure, Except.pure]
  · intro v hv hspared
    have hv' : v ∉ q.waiting := hv
    rw [hwq] at hv'
    exact (h.watched v hv' hspared).of_labels rfl

/-- **The choice** of the node to grow: the held node if it still hangs on something, and
otherwise the next active one. -/
theorem choose_spec (h : f.Ready R held) :
    ∃ o f', f.choose held = .ok (o, f') ∧ f.Chosen f' ∧ f'.ChoiceResult R o ∧
      f'.potential + o.toList.length ≤ f.potential + held.toList.length := by
  have hsize : ∀ g : Forest, g.active.waiting.length ≤ g.active.queue.size := fun g =>
    Nat.le_of_eq (Fifo.length_toList g.active.queue)
  unfold choose
  cases held with
  | none =>
    obtain ⟨o, f', hok, hrest⟩ :=
      nextActive_spec h.sound h.ordered h.settled h.tracks h.watched
    exact ⟨o, f', hok _ (hsize f), hrest⟩
  | some i =>
    obtain ⟨q, hmark, htq, hwq, hw⟩ := h.letGo
    simp only [hmark, isAttached_eq (f := { f with active := q }) (u := i) h.tracks.lt_of_held,
      bind, Except.bind]
    cases hatt : (label { f with active := q } i).any Label.isAttached with
    | true =>
      obtain ⟨l, hl⟩ := exists_label_of_isAttached (f := f) hatt
      refine ⟨some i, { f with active := q }, rfl, ⟨rfl, rfl, rfl⟩, ⟨l, h.sound.of_labels rfl,
        h.ordered.of_labels rfl (Nat.le_refl _), h.settled.of_labels rfl, htq, hw, hl, ?_⟩, ?_⟩
      · show i ∉ q.waiting
        rw [hwq]
        exact h.tracks.held_not_mem i rfl
      · rw [potential_of_waiting_eq hwq]
    | false =>
      obtain ⟨o, f', hok, hch, hres, hle⟩ := nextActive_spec (f := { f with active := q })
        (h.sound.of_labels rfl) (h.ordered.of_labels rfl (Nat.le_refl _))
        (h.settled.of_labels rfl) htq (hw.of_free (h.settled.label_eq_none hatt))
      refine ⟨o, f', hok _ (hsize _), ⟨hch.labels_eq, hch.clock_eq, hch.orphans_eq⟩, hres, ?_⟩
      rw [potential_of_waiting_eq hwq] at hle
      exact Nat.le_trans hle (Nat.le_add_right _ _)

end Forest

end MinCut
