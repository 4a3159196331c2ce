/-
# Pushes that are due

Nodes are pushed on the queue at three places only: the roots when the forest is planted, a free
node when it is claimed, and the nodes that could grow back to one that leaves its tree.  What one
arc pushes is read off the step that looks along it.  Scans, adopt phases and turns follow by
induction, so between two heads nothing is done to the queue but pushes that are due, taking nodes
up and setting marks by hand.

Key facts:
* `growAlong_active` and `releaseAlong_active` : what one arc pushes;
* `PushDue.tracks` : the marks are right whenever a push is due;
* `AtScan.queueLeads` and `AtLeaving.queueLeads` : what scans push, by induction on the arcs ahead;
* `SearchOf.queueLeads_restart` : the queue of a new forest;
* `AtHead.queueLeads` : the queue from head to head.
-/
import MinCut.Proofs.Boundaries

namespace MinCut

variable {r : Register} {N : Network} {m : Int} {bits : Nat} {s : Search} {i u : Nat}

/-! ## The pushes -/

namespace Forest

variable {t : ArcTable} {f g : Forest} {j : Nat} {l k : Label} {a : ArcRef} {side : Segment}

/-- Queues the node `u` if it is a root. -/
def plantRoot (labels : Array (Option Label)) (q : ActiveQueue) (u : Nat) :
    Except Fault ActiveQueue :=
  match labels[u]? with
  | some (some _) => q.push u
  | _ => .ok q

theorem activateRoots_eq_foldlM (labels : Array (Option Label)) : activateRoots labels =
    (List.range labels.size).foldlM (plantRoot labels) (ActiveQueue.ofSize labels.size) := rfl

/-- **Planting a node** pushes it if it is a root, and does nothing otherwise. -/
theorem plantRoot_cases {labels : Array (Option Label)} {q q' : ActiveQueue}
    (h : plantRoot labels q u = .ok q') :
    (∃ l, labels[u]? = some (some l) ∧ q.push u = .ok q') ∨ q' = q := by
  unfold plantRoot at h
  split at h
  · exact .inl ⟨_, ‹_›, h⟩
  · exact .inr (Except.ok.inj h).symm

/-- A node labelled `l` that looks along the arc `a` claims the free node `j`. -/
def Claims (t : ArcTable) (f : Forest) (l : Label) (a : ArcRef) (j : Nat) : Prop :=
  ∃ c, t.treeResidual l.side a.sister = .ok c ∧ c ≠ 0 ∧ t.head a = .ok j ∧
    f.labels[j]? = some none

/-- A node that leaves the tree `side` wakes the node `j`, which could grow back to it along the
arc `a`. -/
def Wakes (t : ArcTable) (f : Forest) (side : Segment) (a : ArcRef) (j : Nat) : Prop :=
  ∃ k c, t.head a = .ok j ∧ f.labels[j]? = some (some k) ∧ k.side = side ∧
    t.treeResidual side a = .ok c ∧ 0 < c

/-- **Looking along an arc** pushes the node that is claimed, and no other. -/
theorem growAlong_active {reparent : Bool} {o : Option Meeting}
    (h : growAlong t reparent i l f a = .ok (g, o)) :
    (∃ j, f.Claims t l a j ∧ f.active.push j = .ok g.active) ∨
      (∀ j, ¬ f.Claims t l a j) ∧ g.active = f.active := by
  obtain ⟨c, hc, h⟩ := bind_eq_ok_iff.1 h
  split at h
  · rename_i hzero
    obtain ⟨rfl, -⟩ := Prod.mk.inj (Except.ok.inj h)
    refine .inr ⟨?_, rfl⟩
    rintro j ⟨c', hc', hne, -⟩
    rw [hc] at hc'
    exact hne (Except.ok.inj hc' ▸ hzero)
  · rename_i hne
    obtain ⟨j, hj, h⟩ := bind_eq_ok_iff.1 h
    obtain ⟨o', ho', h⟩ := bind_eq_ok_iff.1 h
    have hget := fetch_eq_ok_iff.1 ho'
    cases o' with
    | none =>
      obtain ⟨f', hf', h⟩ := bind_eq_ok_iff.1 h
      obtain ⟨q, hq, hf'⟩ := bind_eq_ok_iff.1 hf'
      obtain rfl := Except.ok.inj hf'
      obtain ⟨rfl, -⟩ := Prod.mk.inj (Except.ok.inj h)
      exact .inl ⟨j, ⟨c, hc, hne, hj, hget⟩, hq⟩
    | some k =>
      have hnot : ∀ j', ¬ f.Claims t l a j' := by
        rintro j' ⟨-, -, -, hj', hfree⟩
        obtain rfl := Except.ok.inj (hj.symm.trans hj')
        rw [hget] at hfree
        cases hfree
      refine .inr ⟨hnot, ?_⟩
      simp only at h
      split at h
      · obtain ⟨rfl, -⟩ := Prod.mk.inj (Except.ok.inj h)
        rfl
      · split at h <;> obtain ⟨rfl, -⟩ := Prod.mk.inj (Except.ok.inj h) <;> rfl

/-- Orphaning a child pushes nothing. -/
theorem active_of_disown (h : disown t i j k f = .ok g) : g.active = f.active := by
  rcases disown_cases h with rfl | ⟨p, -, -, rfl⟩ <;> rfl

/-- **Leaving a tree** pushes along each arc the node that is woken, and no other. -/
theorem releaseAlong_active (h : releaseAlong t side i f a = .ok g) :
    (∃ j, f.Wakes t side a j ∧ f.active.push j = .ok g.active) ∨
      (∀ j, ¬ f.Wakes t side a j) ∧ g.active = f.active := by
  obtain ⟨j, hj, ⟨rfl, hother⟩ | ⟨k, c, hk, hside, hc, ⟨hpos, q, hq, hdisown⟩ | ⟨hpos, hdisown⟩⟩⟩ :=
    releaseAlong_cases h
  · refine .inr ⟨?_, rfl⟩
    rintro j' ⟨k, c, hj', hk, hside, -⟩
    obtain rfl := Except.ok.inj (hj.symm.trans hj')
    exact hother k hk hside
  · have hactive : g.active = q := active_of_disown (f := { f with active := q }) hdisown
    exact .inl ⟨j, ⟨k, c, hj, hk, hside, hc, hpos⟩, by rw [hactive, hq]⟩
  · refine .inr ⟨?_, active_of_disown hdisown⟩
    rintro j' ⟨k', c', -, -, -, hc', hpos'⟩
    obtain rfl := Except.ok.inj (hc.symm.trans hc')
    exact hpos hpos'

/-- One arc more of a scan. -/
theorem growAll_concat {reparent : Bool} {as : List ArcRef} {o : Option Meeting} {k : Forest}
    (h : growAll t reparent i l f as = .ok (g, none))
    (ha : growAlong t reparent i l g a = .ok (k, o)) :
    growAll t reparent i l f (as ++ [a]) = .ok (k, o) := by
  induction as generalizing f with
  | nil =>
    obtain ⟨rfl, -⟩ := Prod.mk.inj (Except.ok.inj h)
    rw [List.nil_append]
    unfold growAll
    simp only [ha, bind, Except.bind]
    cases o <;> rfl
  | cons b as ih =>
    obtain ⟨⟨f₁, o₁⟩, h₁, h⟩ := bind_eq_ok_iff.1 h
    rw [List.cons_append]
    unfold growAll
    simp only [h₁, bind, Except.bind]
    cases o₁ with
    | none => exact ih h
    | some mt => cases h

/-- One arc more around a node that leaves its tree. -/
theorem releaseAll_concat {as : List ArcRef} {k : Forest} (h : releaseAll t side i f as = .ok g)
    (ha : releaseAlong t side i g a = .ok k) : releaseAll t side i f (as ++ [a]) = .ok k := by
  induction as generalizing f with
  | nil =>
    obtain rfl := Except.ok.inj h
    rw [List.nil_append]
    unfold releaseAll
    simp only [ha, bind, Except.bind]
    rfl
  | cons b as ih =>
    obtain ⟨f₁, h₁, h⟩ := bind_eq_ok_iff.1 h
    rw [List.cons_append]
    unfold releaseAll
    simp only [h₁, bind, Except.bind]
    exact ih h

end Forest

/-! ## Whenever a push is due -/

/-- **A push is due**: in one of the solves the node `u` is about to be pushed on the queue `q`.  In
an adopt phase, `phase` is the held node and the search that the augmentation has left. -/
inductive PushDue (r : Register) (N : Network) :
    Option (Nat × Search) → ActiveQueue → Nat → Prop where
  /-- The forest is planted, and the root `u` is next. -/
  | root {s : Search} {us vs : List Nat} {q : ActiveQueue} {u : Nat} {l : Label} :
    SearchOf r N s → List.range s.residual.excess.size = us ++ u :: vs →
    us.foldlM (Forest.plantRoot (s.residual.excess.map Forest.rootLabel))
      (ActiveQueue.ofSize s.residual.excess.size) = .ok q →
    (s.residual.excess.map Forest.rootLabel)[u]? = some (some l) → PushDue r N none q u
  /-- A node that grows looks along the arc `a`, along which it claims `u`. -/
  | claim {x : Run} {i u : Nat} {l : Label} {a : ArcRef} {bs : List ArcRef} {f : Forest} :
    AtScan r N x i l (a :: bs) f → f.Claims x.search.residual.arcs l a u →
    PushDue r N none f.active u
  /-- A node leaves its tree and wakes `u` along the arc `a`. -/
  | wake {i v u : Nat} {s : Search} {side : Segment} {a : ArcRef} {bs : List ArcRef} {f : Forest} :
    AtLeaving r N i s v side (a :: bs) f → f.Wakes s.residual.arcs side a u →
    PushDue r N (some (i, s)) f.active u

/-- **Whenever a push is due** the marks tell which nodes wait and which one is held. -/
theorem PushDue.tracks {phase : Option (Nat × Search)} {q : ActiveQueue} (hr : r.Keeps m)
    (hN : N.WellFormed) (hm : N.Fits m) (h : PushDue r N phase q u) :
    q.Tracks N.numNodes (phase.map Prod.fst) := by
  cases h with
  | @root s us vs _ _ l hs hrange hplant hl =>
    have hsize : (s.residual.excess.map Forest.rootLabel).size = s.residual.excess.size :=
      Array.size_map
    have hus : ∀ v ∈ us, v < (s.residual.excess.map Forest.rootLabel).size := by
      intro v hv
      rw [hsize, ← List.mem_range, hrange]
      exact List.mem_append_left _ hv
    obtain ⟨q', hok, htracks, -⟩ := Forest.activateRoots_aux (ActiveQueue.tracks_ofSize _) hus
    rw [hsize, (hs.balances hr hN hm).size_eq] at htracks
    rw [hsize] at hok
    obtain rfl := Except.ok.inj (hok.symm.trans hplant)
    exact htracks
  | claim hscan _ =>
    obtain ⟨hb, hscanning⟩ := hscan.scanning hr hN hm
    have htracks := hscanning.tracks
    rwa [hscanning.sound.size_labels hb.toWithin] at htracks
  | wake hleaving _ =>
    obtain ⟨hb, hrel⟩ := hleaving.releasing hr hN hm
    have htracks := hrel.tracks
    rwa [hrel.size_eq, hb.size_eq] at htracks

/-! ## All that is done to the queue -/

/-- **A step of the queue** in one of the solves: a push that is due, a node that is taken up, or a
mark that is set by hand. -/
inductive QueueStep (r : Register) (N : Network) : ActiveQueue → ActiveQueue → Prop where
  | push {phase : Option (Nat × Search)} {q q' : ActiveQueue} {u : Nat} :
    PushDue r N phase q u → q.push u = .ok q' → QueueStep r N q q'
  | pop {q q' : ActiveQueue} {u : Nat} : q.pop? = some (u, q') → QueueStep r N q q'
  | mark {q q' : ActiveQueue} {u : Nat} {b : Bool} :
    q.setLinked u b = .ok q' → QueueStep r N q q'

/-- Steps of the queue lead from the one to the other. -/
def QueueLeads (r : Register) (N : Network) : ActiveQueue → ActiveQueue → Prop :=
  Relation.ReflTransGen (QueueStep r N)

/-- **Planting** the forest makes due pushes only, by induction on the nodes that are still to be
planted. -/
theorem SearchOf.queueLeads_plantRoots {us vs : List Nat} {q q' : ActiveQueue}
    (hs : SearchOf r N s) (hrange : List.range s.residual.excess.size = us ++ vs)
    (hus : us.foldlM (Forest.plantRoot (s.residual.excess.map Forest.rootLabel))
      (ActiveQueue.ofSize s.residual.excess.size) = .ok q)
    (hvs : vs.foldlM (Forest.plantRoot (s.residual.excess.map Forest.rootLabel)) q = .ok q') :
    QueueLeads r N q q' := by
  induction vs generalizing us q with
  | nil =>
    obtain rfl := Except.ok.inj hvs
    exact .refl
  | cons u vs ih =>
    rw [List.foldlM_cons] at hvs
    obtain ⟨q₁, hu, hvs⟩ := bind_eq_ok_iff.1 hvs
    have hrange' : List.range s.residual.excess.size = (us ++ [u]) ++ vs := by
      rw [hrange, List.append_cons]
    have hus' : (us ++ [u]).foldlM (Forest.plantRoot (s.residual.excess.map Forest.rootLabel))
        (ActiveQueue.ofSize s.residual.excess.size) = .ok q₁ := by
      rw [List.foldlM_append, hus]
      simp only [bind, Except.bind, List.foldlM_cons, hu, List.foldlM_nil, pure, Except.pure]
    have hrest := ih hrange' hus' hvs
    rcases Forest.plantRoot_cases hu with ⟨l, hl, hpush⟩ | rfl
    · exact .head (.push (.root hs hrange hus hl) hpush) hrest
    · exact hrest

/-- **The queue of a new forest** comes from the empty one. -/
theorem SearchOf.queueLeads_restart {s' : Search} (hs : SearchOf r N s)
    (h : s.restart = .ok s') :
    QueueLeads r N (.ofSize s.residual.excess.size) s'.forest.active := by
  obtain ⟨f, hf, h⟩ := bind_eq_ok_iff.1 h
  obtain ⟨q, hq, hf⟩ := bind_eq_ok_iff.1 hf
  obtain rfl := Except.ok.inj hf
  obtain rfl := Except.ok.inj h
  rw [Forest.activateRoots_eq_foldlM, Array.size_map] at hq
  exact hs.queueLeads_plantRoots (List.nil_append _).symm rfl hq

/-- One arc more of a scan that found no meeting. -/
theorem AtScan.next {x : Run} {l : Label} {a : ArcRef} {bs : List ArcRef} {f g : Forest}
    (h : AtScan r N x i l (a :: bs) f)
    (ha : Forest.growAlong x.search.residual.arcs x.search.reparent i l f a = .ok (g, none)) :
    AtScan r N x i l bs g := by
  obtain ⟨hx, k, as, hchoose, hl, haround, hgrow⟩ := h
  rw [List.append_cons] at haround
  exact ⟨hx, k, as ++ [a], hchoose, hl, haround, Forest.growAll_concat hgrow ha⟩

/-- **A scan** makes due pushes only, by induction on the arcs ahead. -/
theorem AtScan.queueLeads {x : Run} {l : Label} {bs : List ArcRef} {f g : Forest}
    {o : Option Meeting} (h : AtScan r N x i l bs f)
    (hok : Forest.growAll x.search.residual.arcs x.search.reparent i l f bs = .ok (g, o)) :
    QueueLeads r N f.active g.active := by
  induction bs generalizing f with
  | nil =>
    obtain ⟨rfl, -⟩ := Prod.mk.inj (Except.ok.inj hok)
    exact .refl
  | cons a bs ih =>
    obtain ⟨⟨f₁, o₁⟩, ha, hok⟩ := bind_eq_ok_iff.1 hok
    have hfirst : QueueLeads r N f.active f₁.active := by
      rcases Forest.growAlong_active ha with ⟨u, hu, hpush⟩ | ⟨-, heq⟩
      · exact .single (.push (.claim h hu) hpush)
      · rw [heq]
        exact .refl
    cases o₁ with
    | none => exact hfirst.trans (ih (h.next ha) hok)
    | some mt =>
      obtain ⟨rfl, -⟩ := Prod.mk.inj (Except.ok.inj hok)
      exact hfirst

/-- One arc more around a node that leaves its tree. -/
theorem AtLeaving.next {v : Nat} {side : Segment} {a : ArcRef} {bs : List ArcRef} {f g : Forest}
    (h : AtLeaving r N i s v side (a :: bs) f)
    (ha : Forest.releaseAlong s.residual.arcs side v f a = .ok g) :
    AtLeaving r N i s v side bs g := by
  obtain ⟨f₀, o, l, as, k, hrepair, hnext, hl, hside, haround, hconsider, hrelease⟩ := h
  rw [List.append_cons] at haround hconsider
  exact ⟨f₀, o, l, as ++ [a], k, hrepair, hnext, hl, hside, haround, hconsider,
    Forest.releaseAll_concat hrelease ha⟩

/-- **Leaving a tree** makes due pushes only, by induction on the arcs ahead. -/
theorem AtLeaving.queueLeads {v : Nat} {side : Segment} {bs : List ArcRef} {f g : Forest}
    (h : AtLeaving r N i s v side bs f)
    (hok : Forest.releaseAll s.residual.arcs side v f bs = .ok g) :
    QueueLeads r N f.active g.active := by
  induction bs generalizing f with
  | nil =>
    obtain rfl := Except.ok.inj hok
    exact .refl
  | cons a bs ih =>
    obtain ⟨f₁, ha, hok⟩ := bind_eq_ok_iff.1 hok
    have hrest := ih (h.next ha) hok
    rcases Forest.releaseAlong_active ha with ⟨u, hu, hpush⟩ | ⟨-, heq⟩
    · exact .head (.push (.wake h hu) hpush) hrest
    · rwa [heq] at hrest

/-- **Settling an orphan**: only if it leaves its tree something is done to the queue. -/
theorem AtRepair.queueLeads_settleNext {f g : Forest} (hr : r.Keeps m) (hN : N.WellFormed)
    (hm : N.Fits m) (h : AtRepair r N i s f)
    (hok : f.settleNext s.residual.arcs = .ok (some g)) :
    QueueLeads r N f.active g.active := by
  obtain ⟨u, o, hnext, hsettle⟩ := Forest.settleNext_eq_ok hok
  obtain ⟨l, as, k, best, hl, haround, hconsider, hcases⟩ := Forest.settle_cases hsettle
  have haround' : s.residual.arcs.around u = .ok (as ++ []) := by rw [List.append_nil, haround]
  obtain ⟨-, hremeasures, -⟩ := h.considering hr hN hm hnext hl haround' hconsider
  have hactive : k.active = f.active := hremeasures.active_eq
  rcases hcases with ⟨c, -, rfl⟩ | ⟨rfl, hrelease⟩
  · show QueueLeads r N f.active k.active
    rw [hactive]
    exact .refl
  · have hleaving : AtLeaving r N i s u l.side as (k.setLabel u none) :=
      ⟨f, o, l, [], k, h, hnext, hl, rfl, haround, hconsider, rfl⟩
    have hleads := hleaving.queueLeads hrelease
    rwa [show (k.setLabel u none).active = f.active from hactive] at hleads

/-- **An adopt phase** makes due pushes only, by induction on the orphans that are settled. -/
theorem AtRepair.queueLeads_adoptAll {f g : Forest} {n c : Nat} (hr : r.Keeps m)
    (hN : N.WellFormed) (hm : N.Fits m) (h : AtRepair r N i s f)
    (hok : f.adoptAll s.residual.arcs n = .ok (g, c)) : QueueLeads r N f.active g.active := by
  induction n generalizing f c with
  | zero =>
    unfold Forest.adoptAll at hok
    obtain ⟨o, -, hok⟩ := bind_eq_ok_iff.1 hok
    cases o with
    | none =>
      obtain ⟨rfl, -⟩ := Prod.mk.inj (Except.ok.inj hok)
      exact .refl
    | some k => cases hok
  | succ n ih =>
    unfold Forest.adoptAll at hok
    obtain ⟨o, hsettle, hok⟩ := bind_eq_ok_iff.1 hok
    cases o with
    | none =>
      obtain ⟨rfl, -⟩ := Prod.mk.inj (Except.ok.inj hok)
      exact .refl
    | some k =>
      obtain ⟨⟨g', d⟩, hrest, hok⟩ := bind_eq_ok_iff.1 hok
      obtain ⟨rfl, -⟩ := Prod.mk.inj (Except.ok.inj hok)
      exact (h.queueLeads_settleNext hr hN hm hsettle).trans (ih (.settled h hsettle) hrest)

/-- Setting a mark by hand is a step of the queue. -/
theorem Forest.queueStep_mark {f g : Forest} {b : Bool} (h : f.mark u b = .ok g) :
    QueueStep r N f.active g.active := by
  obtain ⟨q, hq, h⟩ := bind_eq_ok_iff.1 h
  obtain rfl := Except.ok.inj h
  exact .mark hq

/-- **What looking for an active node can do**: no node waits, or the node that has waited longest
is taken up, or it is passed over and the search goes on. -/
theorem Forest.nextActive_cases {f g : Forest} {n : Nat} {o : Option Nat}
    (h : f.nextActive n = .ok (o, g)) :
    g = f ∨ ∃ u q, f.active.pop? = some (u, q) ∧ (g = { f with active := q } ∨
      ∃ k, n = k + 1 ∧ Forest.nextActive { f with active := q } k = .ok (o, g)) := by
  unfold Forest.nextActive at h
  cases hp : f.active.pop? with
  | none =>
    rw [hp] at h
    exact .inl (Prod.mk.inj (Except.ok.inj h)).2.symm
  | some p =>
    obtain ⟨u, q⟩ := p
    simp only [hp] at h
    obtain ⟨b, -, h⟩ := bind_eq_ok_iff.1 h
    refine .inr ⟨u, q, rfl, ?_⟩
    split at h
    · exact .inl (Prod.mk.inj (Except.ok.inj h)).2.symm
    · cases n with
      | zero => cases h
      | succ k => exact .inr ⟨k, rfl, h⟩

/-- **Looking for an active node** only takes nodes out of the queue, by induction on the nodes that
are passed over. -/
theorem Forest.queueLeads_nextActive {f g : Forest} {n : Nat} {o : Option Nat}
    (h : f.nextActive n = .ok (o, g)) : QueueLeads r N f.active g.active := by
  induction n using Nat.strongRecOn generalizing f with
  | _ n ih =>
    obtain rfl | ⟨u, q, hp, rfl | ⟨k, rfl, hrest⟩⟩ := nextActive_cases h
    · exact .refl
    · exact .single (.pop hp)
    · exact .head (.pop hp) (ih k (Nat.lt_succ_self k) hrest)

/-- **The choice** of the node to grow pushes nothing. -/
theorem Forest.queueLeads_choose {f g : Forest} {held o : Option Nat}
    (h : f.choose held = .ok (o, g)) : QueueLeads r N f.active g.active := by
  cases held with
  | none => exact queueLeads_nextActive h
  | some w =>
    obtain ⟨k, hmark, h⟩ := bind_eq_ok_iff.1 h
    obtain ⟨b, -, h⟩ := bind_eq_ok_iff.1 h
    split at h
    · obtain ⟨-, rfl⟩ := Prod.mk.inj (Except.ok.inj h)
      exact .single (queueStep_mark hmark)
    · exact .head (queueStep_mark hmark) (queueLeads_nextActive h)

/-- **Growing** makes due pushes only. -/
theorem AtHead.queueLeads_grow {x : Run} {f g : Forest} {o : Option Meeting} (hx : AtHead r N x)
    (hchoose : x.search.forest.choose x.held = .ok (some i, f))
    (hgrow : f.grow x.search.residual.arcs x.search.reparent i = .ok (g, o)) :
    QueueLeads r N f.active g.active := by
  obtain ⟨ol, hl, hgrow⟩ := bind_eq_ok_iff.1 hgrow
  cases ol with
  | none => cases hgrow
  | some l =>
    obtain ⟨as, haround, hgrow⟩ := bind_eq_ok_iff.1 hgrow
    obtain ⟨⟨k, mt⟩, hall, hgrow⟩ := bind_eq_ok_iff.1 hgrow
    obtain ⟨rfl, -⟩ := Prod.mk.inj (Except.ok.inj hgrow)
    have hscan : AtScan r N x i l as f :=
      ⟨hx, f, [], hchoose, fetch_eq_ok_iff.1 hl, haround, rfl⟩
    exact hscan.queueLeads (g := k) hall

/-- **From head to head** nothing is done to the queue but pushes that are due, taking nodes up and
setting marks by hand. -/
theorem AtHead.queueLeads {x y : Run} {a : Option Augmentation} (hr : r.Keeps m)
    (hN : N.WellFormed) (hm : N.Fits m) (hx : AtHead r N x) (h : x.turn r = .ok (.next y a)) :
    QueueLeads r N x.search.forest.active y.search.forest.active := by
  rcases Run.turn_cases h with ⟨f, -, ⟨⟩⟩ |
    ⟨j, f, g, hchoose, ⟨hgrow, ⟨⟩⟩ | ⟨mt, y', a', hgrow, hmeet, ⟨⟩⟩⟩
  · exact (Forest.queueLeads_choose hchoose).trans (hx.queueLeads_grow hchoose hgrow)
  · have hgrown := (Forest.queueLeads_choose hchoose).trans (hx.queueLeads_grow hchoose hgrow)
    obtain ⟨k, hmark, hmeet⟩ := bind_eq_ok_iff.1 hmeet
    obtain ⟨⟨s', a''⟩, haug, hmeet⟩ := bind_eq_ok_iff.1 hmeet
    obtain ⟨s'', hrepair, hmeet⟩ := bind_eq_ok_iff.1 hmeet
    obtain ⟨rfl, rfl⟩ := Prod.mk.inj (Except.ok.inj hmeet)
    obtain ⟨⟨h', c⟩, hadopt, hrepair⟩ := bind_eq_ok_iff.1 hrepair
    obtain rfl := Except.ok.inj hrepair
    have hmeeting : AtMeeting r N j mt { x.search with forest := k } :=
      ⟨x, f, g, k, hx, hchoose, hgrow, hmark, rfl⟩
    -- the pushes of flow leave the queue alone
    obtain ⟨s₁, b, -, haugmented, -, hok⟩ := (hmeeting.met hr hN hm).augment hN hm
    have heq := haug
    rw [hok r hr] at heq
    obtain ⟨rfl, -⟩ := Prod.mk.inj (Except.ok.inj heq)
    have hactive : s₁.forest.active = k.active := haugmented.steady.active_eq
    have hadopted := (AtRepair.start hmeeting haug).queueLeads_adoptAll hr hN hm hadopt
    rw [hactive] at hadopted
    exact (hgrown.tail (Forest.queueStep_mark hmark)).trans hadopted

end MinCut
