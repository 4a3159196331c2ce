/-
# Steps in place

The steps that a program takes in place succeed where the steps of a search do, and with the same
result.  A root that was stamped while a way was measured stops the walk that writes the depths
down just where it would stamp the root itself.  A push along a way takes the parent from a node
only after the way has gone on from it, and the two ways of a path share no node, so each parent
is read while it is still there.

Key facts:
* `Untouched` : what pushes leave alone, step by step;
* `nextInPlace_eq` : the nodes that are passed over have marks, by induction on the queue;
* `Way.inPlace` : measuring a way and writing the depths down, by induction on the way;
* `pushUp_eq` : a push along a way that is found on the way, by induction on the way;
* `Met.exists_pushesUp` : the two pushes of an augmentation;
* `considerInPlace_eq` and `Met.augmentInPlace_eq` : the steps as a whole.
-/
import MinCut.Proofs.Moments
import MinCut.Search.InPlace

namespace MinCut

/-! ## What pushes leave alone -/

namespace ArcTable

variable {r : Register} {t t' t'' : ArcTable} {a : ArcRef} {u : Nat} {x : Int}

/-- The tables have the same rows, and their arcs lead to the same nodes. -/
structure SameShape (t t' : ArcTable) : Prop where
  offsets_eq : t'.offsets = t.offsets
  adjacency_eq : t'.adjacency = t.adjacency
  head_eq : ∀ a, t'.head a = t.head a

theorem SameShape.refl (t : ArcTable) : SameShape t t := ⟨rfl, rfl, fun _ => rfl⟩

theorem SameShape.trans (h : SameShape t t') (h' : SameShape t' t'') : SameShape t t'' where
  offsets_eq := h'.offsets_eq.trans h.offsets_eq
  adjacency_eq := h'.adjacency_eq.trans h.adjacency_eq
  head_eq a := (h'.head_eq a).trans (h.head_eq a)

theorem SameShape.slice_eq (h : SameShape t t') (u : Nat) : t'.slice u = t.slice u := by
  simp only [slice, h.offsets_eq, h.adjacency_eq]

theorem SameShape.around_eq (h : SameShape t t') (u : Nat) : t'.around u = t.around u := by
  simp only [around, h.offsets_eq, h.adjacency_eq]

theorem sameShape_of_pushFlow (h : t.pushFlow r a x = .ok t') : SameShape t t' := by
  obtain ⟨p, hp, h⟩ := bind_eq_ok_iff.1 h
  obtain ⟨q, hq, h⟩ := bind_eq_ok_iff.1 h
  obtain ⟨along, against, -, -, rfl⟩ := ArcPair.push_eq_ok_iff.1 hq
  split at h
  · cases h
  · obtain rfl := Except.ok.inj h
    refine ⟨rfl, rfl, ?_⟩
    intro b
    rw [fetch_eq_ok_iff] at hp
    unfold head fetch
    simp only [Array.getElem?_setIfInBounds, Array.size_setIfInBounds]
    by_cases hab : a.pair = b.pair
    · rw [if_pos hab, if_pos (Array.getElem?_eq_some_iff.1 hp).1, ← hab, hp]
      simp only [bind, Except.bind, ArcPair.target_withResidual]
    · rw [if_neg hab]

end ArcTable

namespace Search

variable {r : Register} {s s' s'' : Search} {side : Segment} {x : Int} {u : Nat} {a : ArcRef}
variable {us vs : List Nat} {p : Ascent}

/-- Pushes have led from the search `s` to `s'`: the arcs are the same, and only the nodes `us` may
have lost their parents. -/
structure Untouched (us : List Nat) (s s' : Search) : Prop extends s.Steady s' where
  sameShape : ArcTable.SameShape s.residual.arcs s'.residual.arcs
  label_eq : ∀ w, w ∉ us → s'.forest.label w = s.forest.label w

theorem Untouched.refl (s : Search) : s.Untouched [] s := ⟨.refl s, .refl _, fun _ _ => rfl⟩

theorem Untouched.trans (h : s.Untouched us s') (h' : s'.Untouched vs s'') :
    s.Untouched (us ++ vs) s'' where
  toSteady := h.toSteady.trans h'.toSteady
  sameShape := h.sameShape.trans h'.sameShape
  label_eq w hw := by
    rw [List.mem_append, not_or] at hw
    rw [h'.label_eq w hw.2, h.label_eq w hw.1]

theorem untouched_pushArc (h : s.pushArc r x a = .ok s') : s.Untouched [] s' := by
  obtain ⟨t, ht, h⟩ := bind_eq_ok_iff.1 h
  obtain rfl := Except.ok.inj h
  exact ⟨⟨rfl, rfl, rfl, rfl, rfl, rfl, fun _ => Or.inl rfl⟩, ArcTable.sameShape_of_pushFlow ht,
    fun _ _ => rfl⟩

/-- Only the node that loses its parent has another label. -/
theorem untouched_orphan {f : Forest} (h : s.forest.orphan u = .ok f) :
    s.Untouched [u] { s with forest := f } := by
  obtain ⟨l, hl, rfl⟩ := Forest.orphan_eq_ok h
  refine ⟨steady_cutOff hl, .refl _, fun w hw => ?_⟩
  exact (Forest.label_cutOff hl).trans (if_neg fun hc => hw (by simp [hc]))

theorem untouched_pushStep {step : Nat × ArcRef} (h : s.pushStep r side x step = .ok s') :
    s.Untouched [step.1] s' := by
  obtain ⟨s₁, h₁, h⟩ := bind_eq_ok_iff.1 h
  obtain ⟨rest, -, h⟩ := bind_eq_ok_iff.1 h
  have hpush := untouched_pushArc h₁
  split at h
  · obtain ⟨f, hf, h⟩ := bind_eq_ok_iff.1 h
    obtain rfl := Except.ok.inj h
    exact hpush.trans (untouched_orphan hf)
  · obtain rfl := Except.ok.inj h
    exact ⟨hpush.toSteady, hpush.sameShape, fun w _ => hpush.label_eq w List.not_mem_nil⟩

theorem untouched_pushRoot (h : s.pushRoot r side x u = .ok s') : s.Untouched [u] s' := by
  obtain ⟨excess, -, h⟩ := bind_eq_ok_iff.1 h
  obtain ⟨rest, -, h⟩ := bind_eq_ok_iff.1 h
  split at h
  · cases h
  · split at h
    · obtain ⟨f, hf, h⟩ := bind_eq_ok_iff.1 h
      obtain rfl := Except.ok.inj h
      have horphan := untouched_orphan (s := s) hf
      exact ⟨⟨rfl, rfl, rfl, horphan.active_eq, horphan.clock_eq, horphan.size_eq,
        horphan.label_eq_or⟩, .refl _, horphan.label_eq⟩
    · obtain rfl := Except.ok.inj h
      exact ⟨⟨rfl, rfl, rfl, rfl, rfl, rfl, fun _ => Or.inl rfl⟩, .refl _, fun _ _ => rfl⟩

theorem untouched_pushSteps {steps : List (Nat × ArcRef)}
    (h : steps.foldlM (pushStep r side x) s = .ok s') : s.Untouched (steps.map Prod.fst) s' := by
  induction steps generalizing s with
  | nil =>
    obtain rfl : s = s' := Except.ok.inj h
    exact .refl s
  | cons step steps ih =>
    rw [List.foldlM_cons] at h
    obtain ⟨s₁, h₁, h₂⟩ := bind_eq_ok_iff.1 h
    exact (untouched_pushStep h₁).trans (ih h₂)

/-- A push along a way touches no node that is not on it. -/
theorem untouched_pushAscent (h : s.pushAscent r side x p = .ok s') : s.Untouched p.nodes s' := by
  obtain ⟨s₁, h₁, h₂⟩ := bind_eq_ok_iff.1 h
  exact (untouched_pushSteps h₁).trans (untouched_pushRoot h₂)

/-- **An augmentation** leaves the rows and the ends of all arcs. -/
theorem sameShape_of_augment {mt : Meeting} {a : Augmentation} (h : s.augment r mt = .ok (s', a)) :
    ArcTable.SameShape s.residual.arcs s'.residual.arcs := by
  obtain ⟨p, -, h⟩ := bind_eq_ok_iff.1 h
  obtain ⟨b, -, h⟩ := bind_eq_ok_iff.1 h
  split at h
  · obtain ⟨s₄, hpush, h⟩ := bind_eq_ok_iff.1 h
    obtain ⟨rfl, -⟩ := Prod.mk.inj (Except.ok.inj h)
    obtain ⟨s₁, h₁, hpush⟩ := bind_eq_ok_iff.1 hpush
    obtain ⟨s₂, h₂, hpush⟩ := bind_eq_ok_iff.1 hpush
    obtain ⟨s₃, h₃, hpush⟩ := bind_eq_ok_iff.1 hpush
    obtain ⟨flow, -, hpush⟩ := bind_eq_ok_iff.1 hpush
    obtain rfl := Except.ok.inj hpush
    exact (untouched_pushArc h₁).sameShape.trans
      ((untouched_pushAscent h₂).sameShape.trans (untouched_pushAscent h₃).sameShape)
  · cases h

end Search

/-! ## The queue -/

namespace Forest

variable {R : Residual} {t : ArcTable} {f k : Forest} {u w d e n : Nat} {us : List Nat} {l : Label}
variable {a : ArcRef} {side : Segment} {best : Option Candidate}

/-- **Every node that is passed over has a mark**, if every waiting one has. -/
theorem nextInPlace_eq (h : ∀ u ∈ f.active.waiting, u < f.active.linked.size) (n : Nat) :
    f.nextInPlace n = f.nextActive n := by
  induction n generalizing f with
  | zero =>
    unfold nextInPlace nextActive ActiveQueue.take?
    cases hp : f.active.pop? with
    | none => rfl
    | some p =>
      have hu := h p.1 (by rw [ActiveQueue.waiting_pop? hp]; exact List.mem_cons_self)
      simp only [fetch_of_lt hu, bind, Except.bind, pure, Except.pure]
  | succ n ih =>
    unfold nextInPlace nextActive ActiveQueue.take?
    cases hp : f.active.pop? with
    | none => rfl
    | some p =>
      have hwaiting := ActiveQueue.waiting_pop? hp
      have hu := h p.1 (by rw [hwaiting]; exact List.mem_cons_self)
      -- the nodes that still wait have marks as before
      have hrest : ∀ v ∈ p.2.waiting, v < p.2.linked.size := by
        intro v hv
        rw [ActiveQueue.linked_of_pop? hp, Array.size_setIfInBounds]
        exact h v (by rw [hwaiting]; exact List.mem_cons_of_mem _ hv)
      simp only [fetch_of_lt hu, bind, Except.bind, pure, Except.pure,
        ih (f := { f with active := p.2 }) hrest]

/-! ## Measuring -/

/-- The forest with the root `top` measured, if there is one to measure. -/
def stamped (f : Forest) (top : Option Nat) : Forest :=
  match top with
  | none => f
  | some w =>
    match f.label w with
    | none => f
    | some l => f.setLabel w (some (l.measured f.clock 1))

@[simp] theorem clock_stamped (f : Forest) (top : Option Nat) :
    (f.stamped top).clock = f.clock := by
  unfold stamped
  split
  · rfl
  · split <;> rfl

theorem stamped_some (h : f.label w = some l) :
    f.stamped (some w) = f.setLabel w (some (l.measured f.clock 1)) := by
  simp only [stamped, h]

theorem label_stamped {top : Option Nat} (h : top ≠ some u) :
    (f.stamped top).label u = f.label u := by
  unfold stamped
  split
  · rfl
  · rename_i w
    split
    · rfl
    · rename_i l hl
      rw [label_setLabel (lt_of_label hl), if_neg (fun hc => h (by rw [hc]))]

/-- A root is measured whether another node was given a label before or after. -/
theorem stamped_setLabel {top : Option Nat} (h : top ≠ some u) (hu : u < f.labels.size)
    (o : Option Label) : (f.stamped top).setLabel u o = (f.setLabel u o).stamped top := by
  cases top with
  | none => rfl
  | some w =>
    have hwu : w ≠ u := fun hc => h (by rw [hc])
    have hlabel : (f.setLabel u o).label w = f.label w := by
      rw [label_setLabel hu, if_neg (Ne.symm hwu)]
    simp only [stamped, hlabel]
    cases f.label w with
    | none => rfl
    | some l =>
      simp only [setLabel, Array.setIfInBounds_comm _ _ hwu]

/-- **Measuring a way in place**: the walk up stamps the root at which it ends, and the walk that
writes the depths down does the rest.  The nodes below the way may have been written to already. -/
theorem Way.inPlace (hway : Way t f u us d) (hnodup : us.Nodup) : ∃ top : Option Nat,
    (∀ w, top = some w → w ∈ us ∧ ∃ l, f.label w = some l ∧ l.stamp ≠ f.clock ∧
      l.parent = .root) ∧
    (∀ n e, us.length ≤ n → measure t f n e u = .ok (some (e + d), f.stamped top)) ∧
    ∀ k : Forest, k.clock = f.clock → (∀ w ∈ us, k.label w = f.label w) →
      (∀ w l, f.label w = some l → l.stamp = f.clock → k.label w = some l) →
        markBelow t (k.stamped top) d u = markUp t k d u := by
  induction hway with
  | measured hu hs =>
    rename_i u l
    refine ⟨none, by simp, ?_, ?_⟩
    · intro n e _
      unfold measure
      simp only [fetch_labels_of_label hu, bind, Except.bind, pure, Except.pure, if_pos hs]
      rfl
    · intro k hclock _ hmeasured
      have hk := fetch_labels_of_label (hmeasured u l hu hs)
      unfold stamped markBelow markUp
      simp only [hk, hclock, if_pos hs, bind, Except.bind, pure, Except.pure]
  | root hu hs hp =>
    rename_i u l
    refine ⟨some u, ?_, ?_, ?_⟩
    · intro w hw
      obtain rfl := Option.some.inj hw
      exact ⟨List.mem_singleton_self u, l, hu, hs, hp⟩
    · intro n e _
      unfold measure
      simp only [fetch_labels_of_label hu, bind, Except.bind, pure, Except.pure, if_neg hs, hp,
        stamped_some hu]
    · intro k hclock hus _
      have hk : k.label u = some l := by rw [hus u (List.mem_singleton_self u), hu]
      have hk' : (k.setLabel u (some (l.measured k.clock 1))).label u =
          some (l.measured k.clock 1) := by
        rw [label_setLabel (lt_of_label hk), if_pos rfl]
      rw [stamped_some hk]
      unfold markBelow markUp
      simp only [fetch_labels_of_label hk, fetch_labels_of_label hk', bind, Except.bind, pure,
        Except.pure, hp]
      have hstamp : (l.measured k.clock 1).stamp =
          (k.setLabel u (some (l.measured k.clock 1))).clock := rfl
      rw [if_pos hstamp, if_neg (by rw [hclock]; exact hs)]
  | via hu hs hp ha hrest ih =>
    rename_i u v d l a us
    obtain ⟨hnot, hnodup'⟩ := List.nodup_cons.1 hnodup
    obtain ⟨top, htop, hmeasure, hmark⟩ := ih hnodup'
    have hne : top ≠ some u := fun hc => hnot (htop u hc).1
    refine ⟨top, fun w hw => ⟨List.mem_cons_of_mem u (htop w hw).1, (htop w hw).2⟩, ?_, ?_⟩
    · intro n e hn
      rw [List.length_cons] at hn
      obtain ⟨j, rfl⟩ : ∃ j, n = j + 1 := ⟨n - 1, by omega⟩
      unfold measure
      simp only [fetch_labels_of_label hu, bind, Except.bind, pure, Except.pure, if_neg hs, hp,
        ha.head_eq, hmeasure j (e + 1) (by omega)]
      rw [Nat.add_assoc, Nat.add_comm 1 d]
    · intro k hclock hus hmeasured
      have hk : k.label u = some l := by rw [hus u List.mem_cons_self, hu]
      have hk' : (k.stamped top).label u = some l := by rw [label_stamped hne, hk]
      have hset : ∀ o w, w ≠ u → (k.setLabel u o).label w = k.label w := fun o w hw => by
        rw [label_setLabel (lt_of_label hk), if_neg (Ne.symm hw)]
      unfold markBelow markUp
      simp only [fetch_labels_of_label hk, fetch_labels_of_label hk', bind, Except.bind, pure,
        Except.pure, hp, ha.head_eq, clock_stamped, stamped_setLabel hne (lt_of_label hk)]
      rw [if_neg (by rw [hclock]; exact hs), if_neg (by rw [hclock]; exact hs)]
      -- the rest of the way is as it was
      apply hmark
      · exact hclock
      · intro w hw
        rw [hset _ w (fun hc => hnot (hc ▸ hw)), hus w (List.mem_cons_of_mem u hw)]
      · intro w m hm hms
        have hwu : w ≠ u := by
          rintro rfl
          rw [hu] at hm
          cases hm
          exact hs hms
        rw [hset _ w hwu, hmeasured w m hm hms]

/-- A walk that finds no depth ends at an orphan, which is where it stands or further up. -/
theorem depth?_eq_none (h : depth? t f n u = .ok none) : ∃ l, fetch f.labels u = .ok (some l) ∧
    l.stamp ≠ f.clock ∧ (l.parent = .orphan ∨ ∃ a v j, l.parent = .via a ∧ t.head a = .ok v ∧
      n = j + 1 ∧ depth? t f j v = .ok none) := by
  unfold depth? at h
  obtain ⟨o, ho, h⟩ := bind_eq_ok_iff.1 h
  cases o with
  | none => cases h
  | some l =>
    simp only [pure, Except.pure] at h
    split at h
    · cases h
    · rename_i hs
      refine ⟨l, ho, hs, ?_⟩
      cases hp : l.parent with
      | root =>
        rw [hp] at h
        cases h
      | orphan => exact .inl rfl
      | via a =>
        right
        rw [hp] at h
        cases n with
        | zero => cases h
        | succ j =>
          obtain ⟨v, hv, h⟩ := bind_eq_ok_iff.1 h
          obtain ⟨o', ho', h⟩ := bind_eq_ok_iff.1 h
          cases o' with
          | none => exact ⟨a, v, j, rfl, hv, rfl, ho'⟩
          | some d' => cases h

/-- A walk that ends at an orphan measures nothing. -/
theorem measure_of_depth?_eq_none (h : depth? t f n u = .ok none) (e : Nat) :
    measure t f n e u = .ok (none, f) := by
  induction n generalizing u e with
  | zero =>
    obtain ⟨l, hl, hs, hp | ⟨a, v, j, -, -, hn, -⟩⟩ := depth?_eq_none h
    · unfold measure
      simp only [hl, if_neg hs, hp, bind, Except.bind, pure, Except.pure]
    · cases hn
  | succ n ih =>
    obtain ⟨l, hl, hs, hp | ⟨a, v, j, hp, hv, hn, hrest⟩⟩ := depth?_eq_none h
    · unfold measure
      simp only [hl, if_neg hs, hp, bind, Except.bind, pure, Except.pure]
    · obtain rfl : n = j := Nat.succ.inj hn
      unfold measure
      simp only [hl, if_neg hs, hp, hv, bind, Except.bind, pure, Except.pure]
      exact ih hrest (e + 1)

/-- **What an orphan does about an arc** around it, in place. -/
theorem considerInPlace_eq (hs : f.Sound R) (ho : f.Ordered R.arcs) (he : f.Exact R.arcs)
    (ha : R.arcs.Leads a u w) (hw : w < f.labels.size) (side : Segment)
    (best : Option Candidate) : ∃ p,
      considerInPlace R.arcs side f best a = .ok p ∧ consider R.arcs side f best a = .ok p := by
  unfold considerInPlace consider
  simp only [treeResidual_eq ha, bind, Except.bind, pure, Except.pure]
  by_cases hzero : R.arcs.capacity (treeArc side a) = 0
  · rw [if_pos hzero, if_pos hzero]
    exact ⟨_, rfl, rfl⟩
  · rw [if_neg hzero, if_neg hzero]
    simp only [ha.head_eq, fetch_labels hw]
    cases hm : f.label w with
    | none => exact ⟨_, rfl, rfl⟩
    | some m =>
      simp only
      by_cases hside : m.side ≠ side
      · rw [if_pos hside, if_pos hside]
        exact ⟨_, rfl, rfl⟩
      · rw [if_neg hside, if_neg hside]
        obtain ⟨p, hp⟩ := exists_climbs hs ho hm
        have hlength := hp.length_lt ho
        obtain ⟨o, hok, hway⟩ := depth?_spec hp
        have hdepth := hok f.labels.size (Nat.le_of_lt hlength)
        simp only at hdepth
        cases o with
        | none =>
          simp only [hdepth, measure_of_depth?_eq_none hdepth]
          exact ⟨_, rfl, rfl⟩
        | some d =>
          obtain ⟨us, hus, hsub⟩ := hway d rfl
          have hnodup := hsub.nodup (hp.nodup ho)
          have hle : us.length ≤ f.labels.size := by
            have hnodes := hsub.length_le
            rw [Ascent.nodes, List.length_append, List.length_map, List.length_singleton] at hnodes
            omega
          obtain ⟨top, -, hmeasure, hmark⟩ := hus.inPlace hnodup
          obtain ⟨g, hg, -⟩ := markUp_spec he hus hnodup
          have hg' := (hmark f rfl (fun _ _ => rfl) fun _ _ hl _ => hl).trans hg
          simp only [hdepth, hmeasure _ 0 hle, Nat.zero_add, hg, hg']
          exact ⟨_, rfl, rfl⟩

/-- The arc up from a node that hangs on another one. -/
theorem upArc?_eq_some (hu : f.label u = some l) (hp : l.parent = .via a) :
    f.upArc? u = .ok (some a) := by
  unfold upArc?
  simp only [fetch_labels_of_label hu, hp, bind, Except.bind, pure, Except.pure]

theorem upArc?_eq_none (hu : f.label u = some l) (hp : l.parent = .root) :
    f.upArc? u = .ok none := by
  unfold upArc?
  simp only [fetch_labels_of_label hu, hp, bind, Except.bind, pure, Except.pure]

end Forest

/-! ## Augmenting -/

namespace Search

variable {r : Register} {N : Network} {m x : Int} {s s' : Search} {side : Segment} {u : Nat}
variable {p : Ascent} {held : Option Nat} {mt : Meeting} {a : Augmentation}

/-- **A push along a way that is found on the way.**  The way is one of the forest before the
augmentation, of which the pushes so far have left the nodes on the way alone. -/
theorem pushUp_eq {t : ArcTable} {f : Forest} (hclimb : Forest.Climbs t f u p)
    (hnodup : p.nodes.Nodup) (hroot : ∃ l, f.label p.root = some l ∧ l.parent = .root)
    (hhead : ∀ a, s.residual.arcs.head a = t.head a)
    (hlabel : ∀ w ∈ p.nodes, s.forest.label w = f.label w)
    (hok : s.pushAscent r side x p = .ok s') :
    EndsWithin p.steps.length (fun n => s.pushUp r side x n u) s' := by
  induction hclimb generalizing s with
  | top hu hnot =>
    rename_i u l
    obtain ⟨l', hl', hp⟩ := hroot
    have hup := Forest.upArc?_eq_none ((hlabel u List.mem_cons_self).trans hl') hp
    intro n _
    unfold pushUp
    simp only [hup, bind, Except.bind]
    exact hok
  | step hu hp ha hup ih =>
    rename_i u v l a p
    obtain ⟨hnot, hnodup'⟩ := List.nodup_cons.1 hnodup
    have hnode := Forest.upArc?_eq_some ((hlabel u List.mem_cons_self).trans hu) hp
    unfold pushAscent at hok
    rw [List.foldlM_cons] at hok
    obtain ⟨s₂, hsteps, hlast⟩ := bind_eq_ok_iff.1 hok
    obtain ⟨s₁, hstep, hsteps⟩ := bind_eq_ok_iff.1 hsteps
    have huntouched := untouched_pushStep hstep
    have hhead₁ : ∀ b, s₁.residual.arcs.head b = t.head b := fun b =>
      (huntouched.sameShape.head_eq b).trans (hhead b)
    have hlabel₁ : ∀ w ∈ p.nodes, s₁.forest.label w = f.label w := by
      intro w hw
      have hwu : w ∉ [u] := by
        rintro hmem
        obtain rfl := List.mem_singleton.1 hmem
        exact hnot hw
      rw [huntouched.label_eq w hwu, hlabel w (List.mem_cons_of_mem u hw)]
    have hrest := ih hnodup' hroot hhead₁ hlabel₁ (bind_eq_ok_iff.2 ⟨s₂, hsteps, hlast⟩)
    apply hrest.step
    intro n hn
    unfold pushUp
    simp only [hnode, hstep, hhead₁ a, ha.head_eq, bind, Except.bind]
    exact hn

/-- **The pushes of the augmentation `a`, which find their ways as they go**: the push along the arc
between the trees leads to the search `s₁`, the walk up to the source from there to `s₂`, and the
walk up to the sink to `s₃`. -/
structure PushesUp (r : Register) (s : Search) (mt : Meeting) (a : Augmentation)
    (s₁ s₂ s₃ : Search) : Prop where
  arc : s.pushArc r a.bottleneck mt.middle = .ok s₁
  source : EndsWithin s.forest.labels.size
    (fun n => s₁.pushUp r .source a.bottleneck n mt.sourceEnd) s₂
  sink : EndsWithin s.forest.labels.size
    (fun n => s₂.pushUp r .sink a.bottleneck n mt.sinkEnd) s₃
  source_size : s₁.forest.labels.size = s.forest.labels.size
  sink_size : s₂.forest.labels.size = s.forest.labels.size

/-- **Every augmentation can push on the way**: the two ways of its path share no node, so the
parents along each of them are still there when it is pushed along. -/
theorem Met.exists_pushesUp (h : s.Met N held mt) (hok : s.augment r mt = .ok (s', a)) :
    ∃ p s₁ s₂ s₃ flow, s.forest.path s.residual.arcs mt = .ok p ∧
      s.residual.bottleneck r p = .ok a.bottleneck ∧ 0 < a.bottleneck ∧
      s.PushesUp r mt a s₁ s₂ s₃ ∧ r.store (s₃.residual.flow + a.bottleneck) = .ok flow ∧
      s' = { s₃ with residual.flow := flow, augmentations := s₃.augmentations + 1 } ∧
      a = ⟨a.bottleneck, mt.sourceEnd, mt.sinkEnd⟩ := by
  obtain ⟨l, hl, hl'⟩ := h.joins.source_label
  obtain ⟨k, hk, hk'⟩ := h.joins.sink_label
  obtain ⟨p, hp, hsource⟩ := Forest.exists_limb h.sound h.ordered h.settled hl
  obtain ⟨q, hq, hsink⟩ := Forest.exists_limb h.sound h.ordered h.settled hk
  rw [hl'] at hsource
  rw [hk'] at hsink
  have hpath : s.forest.path s.residual.arcs mt = .ok ⟨p, mt.middle, q⟩ := by
    simp only [Forest.path, hp.eq, hq.eq, bind, Except.bind, pure, Except.pure]
  obtain ⟨path, hpath', hok⟩ := bind_eq_ok_iff.1 hok
  obtain rfl := Except.ok.inj (hpath.symm.trans hpath')
  obtain ⟨x, hx, hok⟩ := bind_eq_ok_iff.1 hok
  split at hok
  · rename_i hpos
    obtain ⟨s₄, hpush, hok⟩ := bind_eq_ok_iff.1 hok
    obtain ⟨rfl, rfl⟩ := Prod.mk.inj (Except.ok.inj hok)
    obtain ⟨s₁, h₁, hpush⟩ := bind_eq_ok_iff.1 hpush
    obtain ⟨s₂, h₂, hpush⟩ := bind_eq_ok_iff.1 hpush
    obtain ⟨s₃, h₃, hpush⟩ := bind_eq_ok_iff.1 hpush
    obtain ⟨flow, hflow, hpush⟩ := bind_eq_ok_iff.1 hpush
    have huntouched₁ := untouched_pushArc h₁
    have huntouched₂ := huntouched₁.trans (untouched_pushAscent h₂)
    have hdisjoint := (hsource.disjoint hsink).1
    have hup₁ := pushUp_eq hsource.climbs hsource.nodup hsource.exists_root
      huntouched₁.sameShape.head_eq (fun w _ => huntouched₁.label_eq w List.not_mem_nil) h₂
    have hup₂ := pushUp_eq hsink.climbs hsink.nodup hsink.exists_root
      huntouched₂.sameShape.head_eq (fun w hw => huntouched₂.label_eq w (hdisjoint w hw)) h₃
    have hup : s.PushesUp r mt ⟨x, mt.sourceEnd, mt.sinkEnd⟩ s₁ s₂ s₃ :=
      ⟨h₁, hup₁.mono (Nat.le_of_lt (hsource.climbs.length_lt h.ordered)),
        hup₂.mono (Nat.le_of_lt (hsink.climbs.length_lt h.ordered)), huntouched₁.size_eq,
        huntouched₂.size_eq⟩
    exact ⟨_, s₁, s₂, s₃, flow, hpath, hx, hpos, hup, hflow, (Except.ok.inj hpush).symm, rfl⟩
  · cases hok

/-- **An augmentation in place** does what an augmentation does. -/
theorem Met.augmentInPlace_eq (h : s.Met N held mt) (hok : s.augment r mt = .ok (s', a)) :
    s.augmentInPlace r mt = .ok (s', a) := by
  obtain ⟨p, s₁, s₂, s₃, flow, hpath, hx, hpos, hup, hflow, rfl, ha⟩ := h.exists_pushesUp hok
  have hsource := hup.source.eq
  have hsink := hup.sink.eq
  rw [← hup.source_size] at hsource
  rw [← hup.sink_size] at hsink
  unfold Search.augmentInPlace
  simp only [hpath, hx, if_pos hpos, hup.arc, hsource, hsink, hflow, bind, Except.bind, pure,
    Except.pure]
  rw [← ha]

end Search

end MinCut
