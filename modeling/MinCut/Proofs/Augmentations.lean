/-
# The exact effect of an augmentation

Each push along an arc takes its amount from the arc and gives it to the sister, so after a list of
pushes the residual capacity of an arc is told by how often the arc and its sister are in the list.
An augmenting path takes each of its arcs once and none back.  Hence what a push leaves of a tree
edge is also what the whole augmentation leaves of it, and the nodes that lose their parents are
those whose bond is used up in the end.

Key facts:
* `push_queues` : the node that a single push costs its parent;
* `pushed` and `pushed_all` : single pushes and lists of them, by induction on the list;
* `exists_severs` : the push at which a node loses its parent;
* `Met.pushesAlong` : the search before and after an augmentation;
* `augmentations_exact` : the effect of every augmentation of every solve.
-/
import Mathlib.Tactic.Ring
import MinCut.Proofs.Boundaries
import MinCut.Proofs.ForestAtHeads
import MinCut.Proofs.Paths

namespace MinCut

/-! ## The arcs of a push -/

/-- The arc along which a push is made, if it is made along one. -/
def Push.arcs : Push → List ArcRef
  | .arc a => [a]
  | .step side _ a => [treeArc side a]
  | .root _ _ => []

/-- The push is one of those that cost the node `w` its parent, for it has used up what binds the
node in the search `s`. -/
def Push.Severs (q : Push) (s : Search) (w : Nat) : Prop :=
  match q with
  | .arc _ => False
  | .step side u a => u = w ∧ s.residual.arcs.treeResidual side a = .ok 0
  | .root _ u => u = w ∧ s.residual.excess[u]? = some 0

/-! ## Reads -/

theorem except_map_map {ε α β γ : Type} (x : Except ε α) (f : α → β) (g : β → γ) :
    (x.map f).map g = x.map fun a => g (f a) :=
  Functor.map_map f g x

theorem except_map_id {ε α : Type} (x : Except ε α) : (x.map fun a => a) = x := id_map x

namespace ArcTable

variable {t : ArcTable} {a b : ArcRef} {as : List ArcRef} {x : Int}

/-- The ends and the residual capacity of an arc are read from the same pair. -/
theorem residual_eq_map (t : ArcTable) (a : ArcRef) :
    t.residual a = (t.head a).map fun _ => t.capacity a := by
  unfold residual head capacity fetch
  cases t.pairs[a.pair]? <;> rfl

@[simp] theorem head_shift : (t.shift a x).head b = t.head b := by
  unfold head fetch
  rw [getElem?_pairs_shift, size_pairs_shift]
  by_cases h : a.pair = b.pair
  · cases t.pairs[b.pair]? <;> simp [h, bind, Except.bind]
  · rw [if_neg h]

end ArcTable

namespace Search

variable {x b : Int} {s s' s'' : Search} {q : Push} {ps qs : List Push} {a : ArcRef} {u w : Nat}
variable {side : Segment} {p : Path} {N : Network} {held : Option Nat} {mt : Meeting} {m : Int}
variable {r : Register}

/-! ## What pushes take and give -/

/-- Pushes of `x` have led from the search `s` to the search `s'`. -/
structure Pushed (x : Int) (ps : List Push) (s s' : Search) : Prop where
  residual_eq : ∀ a, s'.residual.arcs.residual a = (s.residual.arcs.residual a).map fun c =>
    c + x * (ps.flatMap Push.arcs).count a.sister - x * (ps.flatMap Push.arcs).count a
  excess_eq : ∀ w, s'.residual.excess[w]? = (s.residual.excess[w]?).map fun e =>
    e + x * ps.count (.root .sink w) - x * ps.count (.root .source w)

theorem Pushed.trans (h : Pushed x ps s s') (h' : Pushed x qs s' s'') :
    Pushed x (ps ++ qs) s s'' where
  residual_eq a := by
    rw [h'.residual_eq, h.residual_eq, List.flatMap_append, List.count_append, List.count_append,
      except_map_map]
    congr 1
    funext c
    push_cast
    ring
  excess_eq w := by
    rw [h'.excess_eq, h.excess_eq, Option.map_map, List.count_append, List.count_append]
    congr 1
    funext e
    simp only [Function.comp_apply]
    push_cast
    ring

/-- A push of exact amounts moves capacity to the sister of its arc. -/
theorem pushArc_exact (h : s.pushArc .exact x a = .ok s') :
    s' = s.shift a x ∧ ∃ u v, s.residual.arcs.Leads a u v := by
  obtain ⟨t, ht, h⟩ := bind_eq_ok_iff.1 h
  obtain rfl := Except.ok.inj h
  obtain ⟨p, hp, hpush⟩ := bind_eq_ok_iff.1 ht
  obtain ⟨q, hq, hneg⟩ := bind_eq_ok_iff.1 hpush
  obtain ⟨_, _, hd, hg, rfl⟩ := ArcPair.push_eq_ok_iff.1 hq
  obtain rfl := Except.ok.inj hd
  obtain rfl := Except.ok.inj hg
  have hpair := fetch_eq_ok_iff.1 hp
  have hlead : s.residual.arcs.Leads a (p.target a.direction.opposite) (p.target a.direction) :=
    ⟨p, hpair, rfl, rfl⟩
  have hnonneg : 0 ≤ s.residual.arcs.capacity a - x := by
    split at hneg
    · cases hneg
    · rename_i hnot
      simpa [ArcTable.capacity, hpair] using hnot
  have hshift := ArcTable.pushFlow_eq_shift (r := .exact) hlead rfl rfl hnonneg
  obtain rfl := Except.ok.inj (ht.symm.trans hshift)
  exact ⟨rfl, _, _, hlead⟩

theorem pushed_shift {v : Nat} (h : s.residual.arcs.Leads a u v) (hq : q.arcs = [a])
    (hroot : ∀ side w, q ≠ .root side w) (harcs : s'.residual.arcs = s.residual.arcs.shift a x)
    (hexcess : s'.residual.excess = s.residual.excess) : Pushed x [q] s s' where
  residual_eq c := by
    have hne := a.sister_ne
    have hback : c.sister = a ↔ c = a.sister :=
      ⟨fun hc => by rw [← hc, ArcRef.sister_sister], fun hc => by rw [hc, ArcRef.sister_sister]⟩
    rw [harcs, ArcTable.residual_eq_map, ArcTable.head_shift, s.residual.arcs.residual_eq_map,
      except_map_map, List.flatMap_singleton, hq]
    congr 1
    funext _
    rw [ArcTable.capacity_shift h]
    simp only [List.count_singleton, beq_iff_eq, eq_comm (a := a), hback]
    by_cases hca : c = a
    · subst hca
      simp [Ne.symm hne]
    · by_cases hcs : c = a.sister
      · subst hcs
        simp [hne]
      · simp [hca, hcs]
  excess_eq w := by
    rw [hexcess]
    simp [hroot]

/-- **A single push** takes the parent from the node whose bond it uses up, and stacks it. -/
theorem push_queues (h : s.push r x q = .ok s') :
    (s'.forest = s.forest ∧ ∀ w, ¬ q.Severs s' w) ∨
      ∃ w l, q.Severs s' w ∧ s.forest.label w = some l ∧ s'.forest = s.forest.cutOff w l := by
  cases q with
  | arc a =>
    obtain ⟨t, -, h⟩ := bind_eq_ok_iff.1 h
    obtain rfl := Except.ok.inj h
    exact .inl ⟨rfl, fun w hw => hw⟩
  | step side u a =>
    obtain ⟨s₁, h₁, h⟩ := bind_eq_ok_iff.1 h
    obtain ⟨t, -, h₁⟩ := bind_eq_ok_iff.1 h₁
    obtain rfl := Except.ok.inj h₁
    obtain ⟨c, hc, h⟩ := bind_eq_ok_iff.1 h
    split at h
    · rename_i hzero
      subst hzero
      obtain ⟨f, hf, h⟩ := bind_eq_ok_iff.1 h
      obtain ⟨l, hl, rfl⟩ := Forest.orphan_eq_ok hf
      obtain rfl := Except.ok.inj h
      exact .inr ⟨u, l, ⟨rfl, hc⟩, hl, rfl⟩
    · rename_i hne
      obtain rfl := Except.ok.inj h
      refine .inl ⟨rfl, ?_⟩
      rintro w ⟨-, hzero⟩
      exact hne (Except.ok.inj (hc.symm.trans hzero))
  | root side u =>
    obtain ⟨e, he, h⟩ := bind_eq_ok_iff.1 h
    obtain ⟨c, -, h⟩ := bind_eq_ok_iff.1 h
    have hu := (Array.getElem?_eq_some_iff.1 (fetch_eq_ok_iff.1 he)).1
    have hget : (s.residual.excess.setIfInBounds u c)[u]? = some c := by simp [hu]
    split at h
    · cases h
    · split at h
      · rename_i hzero
        subst hzero
        obtain ⟨f, hf, h⟩ := bind_eq_ok_iff.1 h
        obtain ⟨l, hl, rfl⟩ := Forest.orphan_eq_ok hf
        obtain rfl := Except.ok.inj h
        exact .inr ⟨u, l, ⟨rfl, hget⟩, hl, rfl⟩
      · rename_i hne
        obtain rfl := Except.ok.inj h
        refine .inl ⟨rfl, ?_⟩
        rintro w ⟨-, hzero⟩
        exact hne (Option.some.inj (hget.symm.trans hzero))

/-- A push costs no node its parent whose bond it does not use up. -/
theorem label_of_push (h : s.push r x q = .ok s') (w : Nat) :
    s'.forest.label w = s.forest.label w ∨ q.Severs s' w := by
  rcases push_queues h with ⟨hforest, -⟩ | ⟨v, l, hv, hl, hforest⟩
  · exact .inl (by rw [hforest])
  · by_cases hvw : v = w
    · exact .inr (hvw ▸ hv)
    · exact .inl (by rw [hforest, Forest.label_cutOff hl, if_neg hvw])

/-- **A single push** takes and gives what its arc or its root says. -/
theorem pushed (h : s.push .exact x q = .ok s') : Pushed x [q] s s' := by
  cases q with
  | arc a =>
    obtain ⟨rfl, u, v, ha⟩ := pushArc_exact h
    exact pushed_shift ha rfl (by simp) rfl rfl
  | step side u a =>
    obtain ⟨s₁, h₁, h⟩ := bind_eq_ok_iff.1 h
    obtain ⟨rfl, y, z, hy⟩ := pushArc_exact h₁
    obtain ⟨rest, -, h⟩ := bind_eq_ok_iff.1 h
    split at h
    · obtain ⟨f, -, h⟩ := bind_eq_ok_iff.1 h
      obtain rfl := Except.ok.inj h
      exact pushed_shift hy rfl (by simp) rfl rfl
    · obtain rfl := Except.ok.inj h
      exact pushed_shift hy rfl (by simp) rfl rfl
  | root side u =>
    obtain ⟨e, he, h⟩ := bind_eq_ok_iff.1 h
    obtain ⟨y, hy, h⟩ := bind_eq_ok_iff.1 h
    have hu := fetch_eq_ok_iff.1 he
    have hlt := (Array.getElem?_eq_some_iff.1 hu).1
    -- the root alone is passed through
    have hpushed : ∀ f : Forest, Pushed x [.root side u] s
        { s with residual.excess := s.residual.excess.setIfInBounds u y, forest := f } := by
      refine fun f => ⟨fun c => ?_, fun w => ?_⟩
      · simp [Push.arcs, except_map_id]
      · show (s.residual.excess.setIfInBounds u y)[w]? = _
        rw [Array.getElem?_setIfInBounds]
        by_cases hw : u = w
        · subst hw
          rw [if_pos rfl, if_pos hlt, hu]
          cases side <;> obtain rfl := Except.ok.inj hy <;> simp
        · simp [hw]
    split at h
    · cases h
    · split at h
      · obtain ⟨f, -, h⟩ := bind_eq_ok_iff.1 h
        obtain rfl := Except.ok.inj h
        exact hpushed f
      · obtain rfl := Except.ok.inj h
        exact hpushed s.forest

/-- **A list of pushes** does what all its pushes do. -/
theorem pushed_all (h : ps.foldlM (push .exact x) s = .ok s') : Pushed x ps s s' := by
  induction ps generalizing s with
  | nil =>
    obtain rfl : s = s' := Except.ok.inj h
    exact ⟨fun c => by simp [except_map_id], fun w => by simp⟩
  | cons q ps ih =>
    rw [List.foldlM_cons] at h
    obtain ⟨s₁, h₁, h⟩ := bind_eq_ok_iff.1 h
    exact (pushed h₁).trans (ih h)

/-- **A node that loses its parent** does so at a push that has used up its bond. -/
theorem exists_severs (h : ps.foldlM (push .exact x) s = .ok s')
    (hw : s'.forest.label w ≠ s.forest.label w) : ∃ as q bs s₁, ps = as ++ q :: bs ∧
      q.Severs s₁ w ∧ bs.foldlM (push .exact x) s₁ = .ok s' := by
  induction ps generalizing s with
  | nil =>
    obtain rfl : s = s' := Except.ok.inj h
    exact absurd rfl hw
  | cons q ps ih =>
    rw [List.foldlM_cons] at h
    obtain ⟨s₁, h₁, h⟩ := bind_eq_ok_iff.1 h
    rcases label_of_push h₁ w with hsame | hsevers
    · obtain ⟨as, q', bs, s₂, rfl, hsevers, hrest⟩ := ih h (by rwa [hsame])
      exact ⟨q :: as, q', bs, s₂, rfl, hsevers, hrest⟩
    · exact ⟨[], q, ps, s₁, rfl, hsevers, h⟩

end Search

/-! ## The pushes of a path -/

theorem Ascent.arcs_pushes (p : Ascent) (side : Segment) :
    (p.pushes side).flatMap Push.arcs = p.carriers side := by
  simp only [pushes, carriers, List.flatMap_append, List.flatMap_map, List.flatMap_singleton]
  simp [Push.arcs, ← List.map_eq_flatMap]

/-- The pushes along a path go along its arcs. -/
theorem Path.arcs_pushes (p : Path) : (p.pushes.flatMap Push.arcs).Perm p.arcs := by
  rw [pushes, List.flatMap_cons, List.flatMap_append, Ascent.arcs_pushes, Ascent.arcs_pushes]
  have hturn := (List.reverse_perm (p.source.carriers .source)).symm.append_right
    (p.sink.carriers .sink)
  exact (hturn.cons p.middle).trans List.perm_middle.symm

/-- The pushes along a path go once through each of its two roots. -/
theorem Path.count_root_pushes (p : Path) (w : Nat) :
    p.pushes.count (.root .source w) = (if p.source.root = w then 1 else 0) ∧
      p.pushes.count (.root .sink w) = if p.sink.root = w then 1 else 0 := by
  have hsteps : ∀ (side side' : Segment) (steps : List (Nat × ArcRef)),
      (steps.map fun q => Push.step side q.1 q.2).count (.root side' w) = 0 := by
    intro side side' steps
    exact List.count_eq_zero.2 (by simp)
  simp [pushes, Ascent.pushes, hsteps, List.count_cons, List.count_append]

/-! ## The bottleneck -/

/-- The residual capacities of a list of arcs can be read, where all arcs exist. -/
theorem ArcTable.mapM_residual {t : ArcTable} {as : List ArcRef}
    (has : ∀ a ∈ as, ∃ u v, t.Leads a u v) : as.mapM t.residual = .ok (as.map t.capacity) := by
  induction as with
  | nil => rfl
  | cons a as ih =>
    obtain ⟨u, v, ha⟩ := has a List.mem_cons_self
    rw [List.mapM_cons, ha.residual_eq, ih fun b hb => has b (List.mem_cons_of_mem a hb)]
    rfl

/-- What a path can take is its bottleneck. -/
theorem Residual.room_isBottleneck {R : Residual} {p : Path}
    (harcs : ∀ a ∈ p.arcs, ∃ u v, R.arcs.Leads a u v) (hsource : p.source.root < R.excess.size)
    (hsink : p.sink.root < R.excess.size) : R.IsBottleneck p (R.room p) := by
  have hread : ∀ u, u < R.excess.size → R.excess[u]? = some (R.excessAt u) := by
    intro u hu
    simp [excessAt, hu]
  refine ⟨_, _, -R.excessAt p.sink.root, ArcTable.mapM_residual harcs, hread _ hsource, ?_, ?_, ?_⟩
  · rw [hread _ hsink, Int.neg_neg]
  · obtain ⟨hall, hsupply, hdemand⟩ := (R.le_room_iff p _).1 (Int.le_refl _)
    -- if all of them left more, the path could take more
    by_contra hnot
    simp only [Set.mem_ofPred_eq, List.mem_map, not_or, not_exists, not_and] at hnot
    obtain ⟨harc, hne, hne'⟩ := hnot
    have hmore : R.room p + 1 ≤ R.room p := by
      refine (R.le_room_iff p _).2 ⟨fun a ha => ?_, ?_, ?_⟩
      · have h₁ := hall a ha
        have h₂ := harc a ha
        omega
      · omega
      · omega
    omega
  · obtain ⟨hall, hsupply, hdemand⟩ := (R.le_room_iff p _).1 (Int.le_refl _)
    rintro c (hc | rfl | rfl)
    · obtain ⟨a, ha, rfl⟩ := List.mem_map.1 hc
      exact hall a ha
    · exact hsupply
    · exact hdemand

theorem exists_residual_of_mem_mapM {t : ArcTable} {as : List ArcRef} {cs : List Int} {c : Int}
    (h : as.mapM t.residual = .ok cs) (hc : c ∈ cs) : ∃ a ∈ as, t.residual a = .ok c := by
  induction as generalizing cs with
  | nil =>
    obtain rfl : [] = cs := Except.ok.inj h
    cases hc
  | cons a as ih =>
    rw [List.mapM_cons] at h
    obtain ⟨y, hy, h⟩ := bind_eq_ok_iff.1 h
    obtain ⟨ys, hys, h⟩ := bind_eq_ok_iff.1 h
    obtain rfl : y :: ys = cs := Except.ok.inj h
    rcases List.mem_cons.1 hc with rfl | hc
    · exact ⟨a, List.mem_cons_self, hy⟩
    · obtain ⟨b, hb, hbc⟩ := ih hys hc
      exact ⟨b, List.mem_cons_of_mem a hb, hbc⟩

theorem Forest.getElem?_labels_eq (f : Forest) (u : Nat) :
    f.labels[u]? = if u < f.labels.size then some (f.label u) else none := by
  by_cases h : u < f.labels.size <;> simp [label, h]

/-- The two roots of a path are different nodes. -/
theorem Forest.Connects.root_ne {t : ArcTable} {f : Forest} {mt : Meeting} {p : Path}
    (h : f.Connects t mt p) : p.source.root ≠ p.sink.root := by
  have hdisjoint := (List.nodup_append.1 h.nodup).2.2
  exact hdisjoint _ (by simp [Ascent.nodes]) _ (by simp [Ascent.nodes])

namespace Search

variable {x b : Int} {s s' : Search} {p : Path} {N : Network} {held : Option Nat} {mt : Meeting}
variable {m : Int}

/-- **A push of the bottleneck saturates** an arc or a terminal bond: the one that was least. -/
theorem PushesAlong.saturates (h : s.PushesAlong p b s') (hb : s.residual.IsBottleneck p b) :
    s'.Saturates p := by
  obtain ⟨cs, supply, demand, hcs, hsupply, hdemand, hmem | rfl | rfl, -⟩ := hb
  · obtain ⟨a, ha, hres⟩ := exists_residual_of_mem_mapM hcs hmem
    refine Or.inl ⟨a, ha, ?_⟩
    rw [h.residual_on a ha, hres]
    simp [Except.map]
  · refine Or.inr (Or.inl ?_)
    rw [h.excess_source, hsupply]
    simp
  · refine Or.inr (Or.inr ?_)
    rw [h.excess_sink, hdemand]
    simp

/-- Pushes along other arcs leave the residual capacity of an arc. -/
theorem residual_of_pushes {ps : List Push} {a : ArcRef} (h : Pushed x ps s s')
    (ha : a ∉ ps.flatMap Push.arcs) (hs : a.sister ∉ ps.flatMap Push.arcs) :
    s'.residual.arcs.residual a = s.residual.arcs.residual a := by
  rw [h.residual_eq, List.count_eq_zero.2 ha, List.count_eq_zero.2 hs]
  simp [except_map_id]

/-- **A node that has lost its parent is severed** from it: no later push gives back to a tree edge
or a terminal bond what an earlier one has used up. -/
theorem severed_of_label_ne {u : Nat} (hc : s.forest.Connects s.residual.arcs mt p)
    (h : p.pushes.foldlM (push .exact b) s = .ok s')
    (hu : s'.forest.label u ≠ s.forest.label u) : s'.Severed p u := by
  obtain ⟨as, q, bs, s₁, hps, hq, hrest⟩ := exists_severs h hu
  have hpushed := pushed_all hrest
  have harcs : (as.flatMap Push.arcs ++ (q.arcs ++ bs.flatMap Push.arcs)).Perm p.arcs := by
    have hperm := p.arcs_pushes
    rwa [hps, List.flatMap_append, List.flatMap_cons] at hperm
  have hnodup := (harcs.nodup_iff).2 (hc.walk.nodup_arcs hc.nodup)
  have hback := hc.walk.sister_not_mem hc.nodup
  -- a later push takes neither the arc nor its sister
  have hstays : ∀ a, q.arcs = [a] → s'.residual.arcs.residual a = s₁.residual.arcs.residual a := by
    intro a ha
    rw [ha] at harcs hnodup
    refine residual_of_pushes hpushed ?_ ?_
    · have hlater := (List.nodup_append.1 hnodup).2.1
      exact (List.nodup_cons.1 hlater).1
    · intro hmem
      refine hback a (harcs.mem_iff.1 (by simp)) (harcs.mem_iff.1 ?_)
      simp [hmem]
  -- nor does it go through the same root
  have hroot : ∀ side v, q = .root side v → s'.residual.excess[v]? = s₁.residual.excess[v]? := by
    rintro side v rfl
    have hne := hc.root_ne
    obtain ⟨hsource, hsink⟩ := p.count_root_pushes v
    rw [hps, List.count_append, List.count_cons] at hsource hsink
    have hzero : bs.count (.root .source v) = 0 ∧ bs.count (.root .sink v) = 0 := by
      cases side <;> simp at hsource hsink <;> split at hsource <;> split at hsink <;> omega
    rw [hpushed.excess_eq, hzero.1, hzero.2]
    simp
  have hmem : q ∈ p.pushes := by simp [hps]
  simp only [Path.pushes, Ascent.pushes, List.mem_cons, List.mem_append, List.mem_map] at hmem
  rcases hmem with rfl | (⟨⟨v, a⟩, hv, rfl⟩ | rfl | hnil) | ⟨⟨v, a⟩, hv, rfl⟩ | rfl | hnil
  · exact hq.elim
  · obtain ⟨rfl, hzero⟩ := hq
    exact Or.inl ⟨a, hv, (hstays _ rfl).trans hzero⟩
  · obtain ⟨rfl, hzero⟩ := hq
    exact Or.inr (Or.inr ⟨Or.inl rfl, (hroot _ _ rfl).trans hzero⟩)
  · cases hnil
  · obtain ⟨rfl, hzero⟩ := hq
    exact Or.inr (Or.inl ⟨a, hv, (hstays _ rfl).trans hzero⟩)
  · obtain ⟨rfl, hzero⟩ := hq
    exact Or.inr (Or.inr ⟨Or.inr rfl, (hroot _ _ rfl).trans hzero⟩)
  · cases hnil

/-- **A severed node has lost its parent**, for a sound forest hangs no node by a bond that is used
up. -/
theorem isOrphan_of_severed {u : Nat}
    (hsource : Forest.Limb s.residual s.forest .source mt.sourceEnd p.source)
    (hsink : Forest.Limb s.residual s.forest .sink mt.sinkEnd p.sink)
    (hsound : s'.forest.Sound s'.residual)
    (hlabel : ∀ w, s'.forest.label w = s.forest.label w ∨
      s'.forest.label w = (s.forest.label w).map Label.orphaned)
    (hu : s'.Severed p u) : s'.forest.IsOrphan u := by
  -- the node had a parent before, and has it still or is an orphan
  have hcases : ∀ {v l}, s.forest.label v = some l →
      s'.forest.label v = some l ∨ s'.forest.IsOrphan v := by
    intro v l hl
    rcases hlabel v with h | h <;> rw [hl] at h
    · exact Or.inl h
    · exact Or.inr ⟨l.orphaned, Forest.getElem?_labels h, rfl⟩
  have hstep : ∀ {side v a} {q : Ascent}, Forest.Limb s.residual s.forest side v q →
      (u, a) ∈ q.steps → s'.residual.arcs.treeResidual side a = .ok 0 →
        s'.forest.IsOrphan u := by
    intro side v a q hq ha hzero
    obtain ⟨k, hk, hvia⟩ := hq.climbs.exists_step (u, a) ha
    have hside := hq.side_eq u (List.mem_append_left _ (List.mem_map_of_mem ha)) k hk
    refine (hcases hk).resolve_left fun hk' => ?_
    obtain ⟨w, -, hw, -, -, hpos⟩ := hsound.hung u k a hk' hvia
    rw [hside] at hpos
    have hres := Except.ok.inj ((Forest.treeResidual_eq hw side).symm.trans hzero)
    omega
  have hroot : ∀ {side v} {q : Ascent}, Forest.Limb s.residual s.forest side v q → u = q.root →
      s'.residual.excess[u]? = some 0 → s'.forest.IsOrphan u := by
    rintro side v q hq rfl hzero
    obtain ⟨k, hk, hk'⟩ := hq.exists_root
    refine (hcases hk).resolve_left fun hkeeps => ?_
    have hbound := hsound.bound _ k hkeeps hk'
    have hnone : s'.residual.excessAt q.root = 0 := by simp [Residual.excessAt, hzero]
    omega
  rcases hu with ⟨a, ha, hzero⟩ | ⟨a, ha, hzero⟩ | ⟨rfl | rfl, hzero⟩
  · exact hstep hsource ha hzero
  · exact hstep hsink ha hzero
  · exact hroot hsource rfl hzero
  · exact hroot hsink rfl hzero

/-- An augmentation makes the pushes of its path, and then counts itself. -/
theorem augment_eq_ok {r : Register} {a : Augmentation} (h : s.augment r mt = .ok (s', a)) :
    ∃ p s₁ flow, s.forest.path s.residual.arcs mt = .ok p ∧
      s.residual.bottleneck r p = .ok a.bottleneck ∧
        p.pushes.foldlM (push r a.bottleneck) s = .ok s₁ ∧
          r.store (s₁.residual.flow + a.bottleneck) = .ok flow ∧ s' = { s₁ with
            residual.flow := flow
            augmentations := s₁.augmentations + 1 } := by
  obtain ⟨p, hp, h⟩ := bind_eq_ok_iff.1 h
  obtain ⟨x, hx, h⟩ := bind_eq_ok_iff.1 h
  split at h
  · obtain ⟨s₂, hpush, h⟩ := bind_eq_ok_iff.1 h
    obtain ⟨rfl, rfl⟩ := Prod.mk.inj (Except.ok.inj h)
    rw [pushPath_eq] at hpush
    obtain ⟨s₁, hs₁, hpush⟩ := bind_eq_ok_iff.1 hpush
    obtain ⟨flow, hflow, hpush⟩ := bind_eq_ok_iff.1 hpush
    exact ⟨p, s₁, flow, hp, hx, hs₁, hflow, (Except.ok.inj hpush).symm⟩
  · cases h

/-- Along a path that repeats no node every arc is pushed along once, and no arc is pushed back. -/
theorem Pushed.residual_path {a : ArcRef} {f : Forest} {t : ArcTable} (h : Pushed b p.pushes s s')
    (hc : f.Connects t mt p) (ha : a ∈ p.arcs) :
    s'.residual.arcs.residual a = (s.residual.arcs.residual a).map (· - b) ∧
      s'.residual.arcs.residual a.sister = (s.residual.arcs.residual a.sister).map (· + b) := by
  have hone : (p.pushes.flatMap Push.arcs).count a = 1 := by
    rw [p.arcs_pushes.count_eq]
    exact List.count_eq_one_of_mem (hc.walk.nodup_arcs hc.nodup) ha
  have hnone : (p.pushes.flatMap Push.arcs).count a.sister = 0 := by
    rw [p.arcs_pushes.count_eq]
    exact List.count_eq_zero.2 (hc.walk.sister_not_mem hc.nodup a ha)
  constructor
  · rw [h.residual_eq, hone, hnone]
    simp
  · rw [h.residual_eq, ArcRef.sister_sister, hone, hnone]
    simp

/-- A path goes through its two roots once. -/
theorem Pushed.excess_path {f : Forest} {t : ArcTable} (h : Pushed b p.pushes s s')
    (hc : f.Connects t mt p) :
    s'.residual.excess[p.source.root]? = (s.residual.excess[p.source.root]?).map (· - b) ∧
      s'.residual.excess[p.sink.root]? = (s.residual.excess[p.sink.root]?).map (· + b) := by
  have hne := hc.root_ne
  constructor
  · obtain ⟨hsource, hsink⟩ := p.count_root_pushes p.source.root
    rw [h.excess_eq, hsource, hsink]
    simp [hne.symm]
  · obtain ⟨hsource, hsink⟩ := p.count_root_pushes p.sink.root
    rw [h.excess_eq, hsource, hsink]
    simp [hne]

/-- The root at the end of a way up has an excess. -/
theorem Met.root_lt {q : Ascent} {side : Segment} {u : Nat} (h : s.Met N held mt)
    (hq : Forest.Limb s.residual s.forest side u q) : q.root < s.residual.excess.size := by
  obtain ⟨l, hl, -⟩ := hq.exists_root
  rw [← h.sound.size_eq]
  exact Forest.lt_of_label hl

/-- **The exact effect of an augmentation.** -/
theorem Met.pushesAlong (hN : N.WellFormed) (hm : N.Fits m) (h : s.Met N held mt) :
    ∃ p s' b, s.forest.path s.residual.arcs mt = .ok p ∧
      s.forest.Connects s.residual.arcs mt p ∧ s.residual.IsBottleneck p b ∧ 0 < b ∧
        s.PushesAlong p b s' ∧
          ∀ r : Register, r.Keeps m → s.augment r mt = .ok (s', ⟨b, mt.sourceEnd, mt.sinkEnd⟩) := by
  obtain ⟨p, hpath, hc, hsource, hsink⟩ := h.exists_connects
  obtain ⟨s', b, hb, haug, -, hok⟩ := h.augment hN hm
  have hexact := hok .exact (Register.keeps_exact m)
  obtain ⟨p', s₁, flow, hpath', hbottle, hpush, hflow, rfl⟩ := augment_eq_ok hexact
  obtain rfl := Except.ok.inj (hpath.symm.trans hpath')
  obtain rfl := Except.ok.inj hflow
  have hshape := sameShape_of_augment hexact
  obtain ⟨hreparent, -, hadoptions, hactive, hclock, hsize, hlabel⟩ := haug.steady
  have hpushed := pushed_all hpush
  have hlost : ∀ u, s₁.forest.IsOrphan u →
      s₁.forest.label u = (s.forest.label u).map Label.orphaned ∧
        s₁.forest.label u ≠ s.forest.label u := by
    rintro u ⟨k, hk, hp⟩
    have hne : s₁.forest.label u ≠ s.forest.label u := fun heq =>
      h.settled u k (heq ▸ Forest.label_eq_some_iff.2 hk) hp
    exact ⟨(hlabel u).resolve_left hne, hne⟩
  refine ⟨p, _, b, hpath, hc, ?_, hb, ⟨hshape.head_eq, hshape.around_eq,
    fun a ha => (hpushed.residual_path hc ha).1, fun a ha => (hpushed.residual_path hc ha).2, ?_,
    (hpushed.excess_path hc).1, (hpushed.excess_path hc).2, ?_, haug.flow_eq,
    fun u => ⟨?_, ?_⟩, ?_, ?_, haug.listed.nodup, ?_, hactive, hclock, hreparent,
    haug.augmentations_eq, hadoptions⟩, hok⟩
  · have hroom := Residual.bottleneck_eq (Register.keeps_exact m)
      (fun a ha => (hc.walk.exists_leads a ha).imp fun u ⟨v, hv⟩ => ⟨v, hv.1⟩)
      (h.root_lt hsource) (h.root_lt hsink) (h.within.excess_le hN hm (h.root_lt hsink))
    obtain rfl := Except.ok.inj (hbottle.symm.trans hroom)
    exact Residual.room_isBottleneck
      (fun a ha => (hc.walk.exists_leads a ha).imp fun u ⟨v, hv⟩ => ⟨v, hv.1⟩)
      (h.root_lt hsource) (h.root_lt hsink)
  · intro a ha hs
    rw [← p.arcs_pushes.mem_iff] at ha hs
    show s₁.residual.arcs.residual a = _
    exact residual_of_pushes hpushed ha hs
  · intro u hu hu'
    obtain ⟨hcount, hcount'⟩ := p.count_root_pushes u
    rw [if_neg (Ne.symm hu)] at hcount
    rw [if_neg (Ne.symm hu')] at hcount'
    show s₁.residual.excess[u]? = _
    rw [hpushed.excess_eq, hcount, hcount']
    simp
  · intro hu
    show s₁.Severed p u
    exact severed_of_label_ne hc hpush (hlost u hu).2
  · exact isOrphan_of_severed hsource hsink haug.sound hlabel
  · intro u hu
    show s₁.forest.labels[u]? = _
    rw [Forest.getElem?_labels_eq, s.forest.getElem?_labels_eq, hsize, (hlost u hu).1]
    split <;> rfl
  · intro u hu
    show s₁.forest.labels[u]? = _
    rw [Forest.getElem?_labels_eq, s.forest.getElem?_labels_eq, hsize]
    congr 2
    rcases hlabel u with heq | heq
    · exact heq
    · cases hl : s.forest.label u with
      | none =>
        rw [hl] at heq
        exact heq
      | some l =>
        rw [hl] at heq
        exact absurd ⟨l.orphaned, Forest.getElem?_labels heq, rfl⟩ hu
  · intro u
    rw [haug.listed.mem_iff]
    simp only [Forest.label_eq_some_iff]
    rfl

end Search

/-! ## Every augmentation of every solve -/

section

variable {r : Register} {N : Network} {bits i : Nat} {mt : Meeting} {s : Search}

/-- **The exact effect of every augmentation** of every solve of an admissible network: the trees
have met along an arc with residual capacity, the path through the meeting repeats no node, its
bottleneck is positive and is pushed along it, with no other effect than that push, and something
on the path is saturated.  Whether the parents are followed before the pushes or between them makes
no difference. -/
theorem augmentations_exact (hr : r.IsMachine bits) (hN : N.Admissible r)
    (h : AtMeeting r N i mt s) :
    (∃ l, s.forest.labels[mt.sourceEnd]? = some (some l) ∧ l.side = .source) ∧
      (∃ l, s.forest.labels[mt.sinkEnd]? = some (some l) ∧ l.side = .sink) ∧
      s.residual.arcs.Leads mt.middle mt.sourceEnd mt.sinkEnd ∧
      (∃ c, s.residual.arcs.residual mt.middle = .ok c ∧ 0 < c) ∧
      ∃ p s' b, s.forest.path s.residual.arcs mt = .ok p ∧
        s.forest.Connects s.residual.arcs mt p ∧ s.residual.IsBottleneck p b ∧ 0 < b ∧
        s.augment r mt = .ok (s', ⟨b, mt.sourceEnd, mt.sinkEnd⟩) ∧
        s.augmentInPlace r mt = .ok (s', ⟨b, mt.sourceEnd, mt.sinkEnd⟩) ∧
        s.PushesAlong p b s' ∧ s'.Saturates p := by
  have hmet := h.met hr.keeps hN.toWellFormed (hN.fits hr)
  obtain ⟨l, hl, hside⟩ := hmet.joins.source_label
  obtain ⟨k, hk, hside'⟩ := hmet.joins.sink_label
  obtain ⟨p, s', b, hpath, hc, hbottle, hb, hpush, hok⟩ :=
    hmet.pushesAlong hN.toWellFormed (hN.fits hr)
  exact ⟨⟨l, Forest.getElem?_labels hl, hside⟩, ⟨k, Forest.getElem?_labels hk, hside'⟩,
    hmet.joins.leads, ⟨_, hmet.joins.leads.residual_eq, hmet.joins.capacity_pos⟩, p, s', b, hpath,
    hc, hbottle, hb, hok r hr.keeps, hmet.augmentInPlace_eq (hok r hr.keeps), hpush,
    hpush.saturates hbottle⟩

/-- The third augmentation of the detour uses up both terminal bonds and a tree edge. -/
theorem augmentations_exact_detour : ∃ i mt s p s', AtMeeting (.signed 8) detour i mt s ∧
    s.forest.path s.residual.arcs mt = .ok p ∧ p.nodes = [0, 1, 2, 3] ∧
      s.augment (.signed 8) mt = .ok (s', ⟨4, 2, 3⟩) ∧ s'.forest.orphans.order = [3, 0, 1] ∧
        s.forest.Connects s.residual.arcs mt p ∧ s.residual.IsBottleneck p 4 ∧
          s.PushesAlong p 4 s' ∧ s'.Saturates p := by
  have hrun : (headAfter (.signed 8) detour true 3).map (Option.map fun x => (do
      let o ← x.meeting?
      o.mapM fun q => do
        let p ← q.2.2.forest.path q.2.2.residual.arcs q.2.1
        let done ← q.2.2.augment (.signed 8) q.2.1
        return decide (p.nodes = [0, 1, 2, 3] ∧ done.2 = ⟨4, 2, 3⟩ ∧
          done.1.forest.orphans.order = [3, 0, 1]) :
      Except Fault (Option Bool))) = .ok (some (.ok (some true))) := by
    decide +kernel
  obtain ⟨x, hx, heval⟩ := exists_atHead_of_headAfter true 3 hrun
  obtain ⟨o, hmeet, heval⟩ := bind_eq_ok_iff.1 heval
  cases o with
  | none => cases heval
  | some q =>
    obtain ⟨i, mt, s⟩ := q
    obtain ⟨b, heval, hb⟩ := bind_eq_ok_iff.1 heval
    obtain rfl := Option.some.inj (Except.ok.inj hb)
    obtain ⟨p, hp, heval⟩ := bind_eq_ok_iff.1 heval
    obtain ⟨⟨s', a⟩, haug, heval⟩ := bind_eq_ok_iff.1 heval
    obtain ⟨hnodes, rfl, horder⟩ := of_decide_eq_true (Except.ok.inj heval)
    have hat := hx.atMeeting hmeet
    obtain ⟨-, -, -, -, p', s'', b, hp', hc, hbottle, -, hok, -, hpush, hsat⟩ :=
      augmentations_exact ⟨by decide, Or.inl rfl⟩ detour_admissible hat
    obtain rfl := Except.ok.inj (hp'.symm.trans hp)
    obtain ⟨rfl, heq⟩ := Prod.mk.inj (Except.ok.inj (hok.symm.trans haug))
    obtain rfl := (Augmentation.mk.inj heq).1
    exact ⟨i, mt, s, p', s'', hat, hp', hnodes, haug, horder, hc, hbottle, hpush, hsat⟩

end

end MinCut
