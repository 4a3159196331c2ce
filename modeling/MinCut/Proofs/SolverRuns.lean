/-
# Runs of a solver

A solver on which a search of an admissible network shows goes through the solve of that search: it
takes up the same nodes, augments the same paths, and what its variables show in the end is the
search that the solve has led to.  Nothing is asked of what the variables held before, for only
the arcs, the excesses and the setting are read when the roots are planted.

Key facts:
* `Shows.choose` and `Shows.adopt` : the loops that depend on where in a solve they stand;
* `Shows.pass` : one passage through the loop follows one turn;
* `shows_init` : the roots are planted, whatever the cells held;
* `exists_solve_of_searchOf` : a solve as a whole.
-/
import MinCut.Proofs.SolverOrphans
import MinCut.Proofs.SolvesInPlace

namespace MinCut

variable {r : Register} {N : Network} {x y : Run}

namespace Solver

variable {m : Int} {s s' : Search} {R : Residual}
variable {f g : Forest} {b : Bool} {v w : Solver} {u i n j k : Nat} {as told : List Augmentation}

namespace Shows

/-! ## Choosing the node to grow -/

/-- The queue is asked for the next active node. -/
theorem nextActive_of_atQueue (hr : r.Keeps m) (hN : N.WellFormed) (hm : N.Fits m)
    (hq : AtQueue r N f) (h : v.Shows R f b) :
    Follows (fun p q => q.1 = p.1 ∧ q.2.Shows R p.2 b) (f.nextActive f.active.queue.size)
      v.nextActive := by
  intro p hp
  obtain ⟨p', hplace, hp'⟩ := hq.nextInPlace hr hN hm
  obtain rfl := Except.ok.inj (hp.symm.trans hp')
  have hnext := h.nextActive f.active.queue.size p hplace
  unfold Solver.nextActive
  rw [h.active_eq]
  exact hnext

/-- **The same node is chosen** at the head of the loop. -/
theorem choose (hr : r.Keeps m) (hN : N.WellFormed) (hm : N.Fits m) (hx : AtHead r N x)
    (h : v.Shows R x.search.forest b) :
    Follows (fun p q => q.1 = p.1 ∧ q.2.Shows R p.2 b) (x.search.forest.choose x.held)
      (v.choose x.held) := by
  cases hheld : x.held with
  | none => exact h.nextActive_of_atQueue hr hN hm ⟨x, hx, .inl ⟨hheld, rfl⟩⟩
  | some i =>
    intro p hp
    obtain ⟨f, hmark, hp⟩ := bind_eq_ok_iff.1 hp
    obtain ⟨a, hatt, hp⟩ := bind_eq_ok_iff.1 hp
    obtain ⟨w, hw, hshows⟩ := h.mark i false f hmark
    obtain ⟨_, hatt', rfl⟩ := hshows.isAttached i a hatt
    unfold Solver.choose
    simp only [hw, hatt', bind, Except.bind]
    cases a with
    | true =>
      obtain rfl := Except.ok.inj hp
      exact ⟨(some i, w), rfl, rfl, hshows⟩
    | false =>
      exact hshows.nextActive_of_atQueue hr hN hm ⟨x, hx, .inr ⟨i, hheld, hmark, hatt⟩⟩ p hp

/-! ## Settling orphans -/

/-- An orphan that is next in an adopt phase is settled in both. -/
theorem settle_of_atRepair (hr : r.Keeps m) (hN : N.WellFormed) (hm : N.Fits m)
    (hf : AtRepair r N i s f) {rest : OrphanList} (hnext : f.orphans.next? = some (u, rest))
    (h : v.Shows s.residual f b) (hn : N.numNodes ≤ n) :
    Follows (fun g w => w.Shows s.residual g b)
      (Forest.settle s.residual.arcs { f with orphans := rest } u)
      (Solver.settle n { v with orphans := rest } u) := by
  have hsize : s.residual.excess.size ≤ n := by
    rw [(hf.repairing hr hN hm).1.toWithin.size_eq]
    exact hn
  refine (h.withOrphans rest).settle hsize (fun as has => hf.isLaidOut.slice_of_around has) ?_
  rintro l as hl has bs a cs g best rfl hbs
  have hat : AtArc r N i s u g := ⟨f, rest, l, bs, a :: cs, best, hf, hnext, hl, has, hbs⟩
  have hmem : a ∈ bs ++ a :: cs := List.mem_append_right bs List.mem_cons_self
  exact hat.considerInPlace hr hN hm has hmem l.side best

/-- **All orphans are settled** in both, by induction on the orphans. -/
theorem adoptAll (hr : r.Keeps m) (hN : N.WellFormed) (hm : N.Fits m)
    (hf : AtRepair r N i s f) (h : v.Shows s.residual f b) (hn : N.numNodes ≤ n) (hk : k ≤ j) :
    Follows (fun p w => w.Shows s.residual p.1 b) (f.adoptAll s.residual.arcs k)
      (repeatUntil (adoptStep n) j v) := by
  induction k using Nat.strongRecOn generalizing v f j with
  | _ k ih =>
    intro p hp
    unfold Forest.adoptAll at hp
    obtain ⟨o, hsettled, hp⟩ := bind_eq_ok_iff.1 hp
    cases ho : f.orphans.next? with
    | none =>
      simp only [Forest.settleNext, ho] at hsettled
      obtain rfl := Except.ok.inj hsettled
      obtain rfl := Except.ok.inj hp
      have hstep : adoptStep n v = .ok (.inr v) := by
        simp only [adoptStep, h.orphans_eq, ho]
        rfl
      exact ⟨v, repeatUntil_of_inr hstep j, h⟩
    | some q =>
      obtain ⟨u, rest⟩ := q
      have hsome := hsettled
      simp only [Forest.settleNext, ho] at hsome
      obtain ⟨g, hsettle, hsome⟩ := bind_eq_ok_iff.1 hsome
      obtain rfl := Except.ok.inj hsome
      obtain ⟨w, hw, hshows⟩ := settle_of_atRepair hr hN hm hf ho h hn g hsettle
      have hstep : adoptStep n v = .ok (.inl { w with adoptions := w.adoptions + 1 }) := by
        simp only [adoptStep, h.orphans_eq, ho, hw, bind, Except.bind, pure, Except.pure]
      cases k with
      | zero => cases hp
      | succ k =>
        obtain ⟨⟨f', count⟩, hrest, hp⟩ := bind_eq_ok_iff.1 hp
        obtain rfl := Except.ok.inj hp
        obtain ⟨j, rfl⟩ : ∃ j', j = j' + 1 := ⟨j - 1, by omega⟩
        have hcounted : Shows { w with adoptions := w.adoptions + 1 } s.residual g b :=
          ⟨hshows.residual_eq, hshows.forest_eq, hshows.reparent_eq⟩
        obtain ⟨w', hw', hshows'⟩ := ih k (Nat.lt_succ_self k) (hf.settled hsettled) hcounted
          (Nat.le_of_succ_le_succ hk) _ hrest
        exact ⟨w', repeatUntil_of_inl hstep hw', hshows'⟩

/-- **A repair** in both. -/
theorem repair (hr : r.Keeps m) (hN : N.WellFormed) (hm : N.Fits m)
    (hs : AtRepair r N i s s.forest) (h : v.Shows s.residual s.forest s.reparent)
    (hn : N.numNodes ≤ n) :
    Follows (fun s' w => w.Shows s'.residual s'.forest s'.reparent) s.repair (v.adopt n) := by
  intro s' hs'
  obtain ⟨⟨f, count⟩, hadopt, hs'⟩ := bind_eq_ok_iff.1 hs'
  obtain rfl := Except.ok.inj hs'
  have hsize : s.forest.labels.size ≤ n := by
    rw [h.size_labels, (hs.repairing hr hN hm).1.toWithin.size_eq]
    exact hn
  exact h.adoptAll hr hN hm hs hn hsize _ hadopt

/-! ## Passing through the loop -/

/-- What a turn of the search leads to is what a passage of the solver leads to, where the paths
`told` were augmented before. -/
inductive Passed (told : List Augmentation) :
    Turn → Passage ⊕ (Solver × List Augmentation) → Prop where
  | finished {s : Search} {v : Solver} : v.Shows s.residual s.forest s.reparent →
    Passed told (.finished s) (.inr (v, told))
  | next {y : Run} {o : Option Augmentation} {v : Solver} :
    v.Shows y.search.residual y.search.forest y.search.reparent →
      Passed told (.next y o) (.inl ⟨v, y.held, told ++ o.toList⟩)

/-- **One passage through the loop** follows one turn. -/
theorem pass (hr : r.Keeps m) (hN : N.WellFormed) (hm : N.Fits m) (hx : AtHead r N x)
    (h : v.Shows x.search.residual x.search.forest x.search.reparent) (hn : N.numNodes ≤ n)
    (told : List Augmentation) :
    Follows (Passed told) (x.turn r) (Solver.pass r n ⟨v, x.held, told⟩) := by
  intro t ht
  rcases Run.turn_cases ht with ⟨f, hchoose, rfl⟩ |
    ⟨i, f, g, hchoose, ⟨hgrow, rfl⟩ | ⟨mt, y, a, hgrow, hmeet, rfl⟩⟩
  · obtain ⟨⟨_, w⟩, hw, rfl, hshows⟩ := h.choose hr hN hm hx _ hchoose
    refine ⟨_, ?_, .finished (s := { x.search with forest := f }) hshows⟩
    simp only [Solver.pass, hw, bind, Except.bind, pure, Except.pure]
  · obtain ⟨⟨_, w⟩, hw, rfl, hshows⟩ := h.choose hr hN hm hx _ hchoose
    obtain ⟨⟨w', _⟩, hw', hshows', rfl⟩ :=
      hshows.grow (fun as has => hx.isLaidOut.slice_of_around has) _ hgrow
    refine ⟨_, ?_, .next (y := ⟨{ x.search with forest := g }, none⟩) (o := none) hshows'⟩
    simp only [Solver.pass, hw, hw', bind, Except.bind, pure, Except.pure, Option.toList,
      List.append_nil]
  · obtain ⟨⟨_, w⟩, hw, rfl, hshows⟩ := h.choose hr hN hm hx _ hchoose
    obtain ⟨⟨w', _⟩, hw', hshows', rfl⟩ :=
      hshows.grow (fun as has => hx.isLaidOut.slice_of_around has) _ hgrow
    obtain ⟨f', hmark, hmeet⟩ := bind_eq_ok_iff.1 hmeet
    obtain ⟨⟨s₁, a₁⟩, haugment, hmeet⟩ := bind_eq_ok_iff.1 hmeet
    obtain ⟨s₂, hrepair, hmeet⟩ := bind_eq_ok_iff.1 hmeet
    obtain ⟨rfl, rfl⟩ := Prod.mk.inj (Except.ok.inj hmeet)
    have hat : AtMeeting r N i mt { x.search with forest := f' } :=
      ⟨x, f, g, f', hx, hchoose, hgrow, hmark, rfl⟩
    obtain ⟨w₁, hw₁, hshows₁⟩ := hshows'.mark i true f' hmark
    obtain ⟨p, hplace, hp⟩ := hat.augmentInPlace hr hN hm
    obtain rfl := Except.ok.inj (haugment.symm.trans hp)
    have hsize : f'.labels.size ≤ n := by
      rw [hshows₁.size_labels, (hx.sound hr hN hm).balances.toWithin.size_eq]
      exact hn
    obtain ⟨⟨w₂, _⟩, hw₂, hshows₂, rfl⟩ :=
      augment (s := { x.search with forest := f' }) hshows₁ mt hsize _ hplace
    obtain ⟨w₃, hw₃, hshows₃⟩ := hshows₂.repair hr hN hm (.start hat haugment) hn s₂ hrepair
    refine ⟨_, ?_, .next (y := ⟨s₂, some i⟩) (o := some _) hshows₃⟩
    simp only [Solver.pass, hw, hw', hw₁, hw₂, hw₃, bind, Except.bind, pure, Except.pure]
    rfl

/-- **The loop** in both, by induction on the turns. -/
theorem finish (hr : r.Keeps m) (hN : N.WellFormed) (hm : N.Fits m) (hx : AtHead r N x)
    (h : v.Shows x.search.residual x.search.forest x.search.reparent) (hn : N.numNodes ≤ n)
    (told : List Augmentation) (hk : k ≤ j) :
    Follows (fun p q => q.1.Shows p.1.residual p.1.forest p.1.reparent ∧ q.2 = told ++ p.2)
      (x.finish r k) (repeatUntil (Solver.pass r n) j ⟨v, x.held, told⟩) := by
  induction k using Nat.strongRecOn generalizing v x told j with
  | _ k ih =>
    intro p hp
    unfold Run.finish at hp
    obtain ⟨t, ht, hp⟩ := bind_eq_ok_iff.1 hp
    obtain ⟨o, hpass, hpassed⟩ := h.pass hr hN hm hx hn told t ht
    cases hpassed with
    | finished hshows =>
      obtain rfl := Except.ok.inj hp
      exact ⟨_, repeatUntil_of_inr hpass j, hshows, (List.append_nil told).symm⟩
    | next hshows =>
      cases k with
      | zero => cases hp
      | succ k =>
        obtain ⟨⟨s', as⟩, hrest, hp⟩ := bind_eq_ok_iff.1 hp
        obtain rfl := Except.ok.inj hp
        obtain ⟨j, rfl⟩ : ∃ j', j = j' + 1 := ⟨j - 1, by omega⟩
        obtain ⟨q, hq, hshows', htold⟩ := ih k (Nat.lt_succ_self k) (hx.next ht) hshows _
          (Nat.le_of_succ_le_succ hk) _ hrest
        refine ⟨q, repeatUntil_of_inl hpass hq, hshows', ?_⟩
        rw [htold, List.append_assoc]

/-! ## Checking the trees -/

/-- A root is bound to the terminal of its tree. -/
theorem side_rootLabel_eq_iff (x : Int) (side : Segment) :
    (Forest.rootLabel x).map Label.side = some side ↔ x ≠ 0 ∧ (x < 0 ↔ side = .sink) := by
  unfold Forest.rootLabel
  by_cases hzero : x = 0
  · simp [hzero]
  · by_cases hneg : x < 0 <;> cases side <;> simp [hzero, hneg, Label.root]

/-- The check of a cell refuses no label that passes the audit. -/
theorem checkCell (h : v.Shows R f b) {c : Cell} {l : Label} (hl : c.label = some l)
    (hu : v.cells[u]? = some c) : Follows Eq (f.auditLabel R u l) (v.checkCell u c) := by
  obtain ⟨hp, hside, -, -⟩ := Cell.of_label hl
  unfold Forest.auditLabel Solver.checkCell
  rw [hp, h.arcs_eq]
  cases l.parent with
  | orphan => exact .error _
  | root =>
    intro _ hok
    obtain ⟨x, hx, hok⟩ := bind_eq_ok_iff.1 hok
    obtain ⟨c', -, rfl, hc'⟩ := h.fetch_excess u x hx
    obtain rfl := Option.some.inj (hu.symm.trans hc')
    refine Follows.ite ?_ (fun _ => .ok rfl) (fun _ => .error _) _ hok
    rw [side_rootLabel_eq_iff, hside]
  | via a =>
    refine (Follows.refl _).bind_of_eq fun p => ?_
    refine (h.fetch p).bind ?_
    rintro o d ⟨hd, -⟩
    cases o with
    | none => exact .error _
    | some k =>
      obtain ⟨hdp, hdside, -, -⟩ := Cell.of_label hd
      rw [hside]
      refine (Follows.refl _).bind_of_eq fun capacity => ?_
      refine .ite ?_ (fun _ => .ok rfl) fun _ => .error _
      rw [hdside, Cell.isAttached_of_some hdp]
      rfl

/-- **The check** refuses no forest that passes the audit. -/
theorem check (h : v.Shows R f b) : Follows Eq (f.audit R) v.check := by
  -- the cells numbered from `u` on are the last ones
  have hfrom : ∀ (cs : List Cell) (u : Nat), (∀ j : Nat, cs[j]? = v.cells[u + j]?) →
      Follows Eq (f.auditFrom R u (cs.map Cell.label)) (v.checkFrom u cs) := by
    intro cs
    induction cs with
    | nil => exact fun u _ => .ok rfl
    | cons c cs ih =>
      intro u hget
      have hu : v.cells[u]? = some c := (hget 0).symm
      have hrest := ih (u + 1) fun j => by
        rw [show u + 1 + j = u + (j + 1) by omega, ← hget (j + 1), List.getElem?_cons_succ]
      rw [List.map_cons]
      cases hp : c.parent with
      | none =>
        have hcheck : v.checkCell u c = .ok () := by
          rw [Solver.checkCell, hp]
          rfl
        rw [Cell.label_of_none hp, checkFrom, hcheck]
        exact hrest
      | some p =>
        rw [Cell.label_of_some hp]
        refine (h.checkCell (Cell.label_of_some hp) hu).bind_of_eq fun _ => ?_
        exact hrest
  unfold Forest.audit Solver.check
  rw [← h.labels_eq, Array.toList_map]
  exact hfrom v.cells.toList 0 fun j => by rw [Nat.zero_add, Array.getElem?_toList]

end Shows

/-! ## Planting the roots -/

/-- A planted cell is seen as the label of a root, whatever it held. -/
theorem label_planted (c : Cell) : c.planted.label = Forest.rootLabel c.excess := by
  unfold Cell.planted Forest.rootLabel
  by_cases hzero : c.excess = 0
  · rw [if_pos hzero, if_pos hzero]
    rfl
  · rw [if_neg hzero, if_neg hzero, Cell.label_of_some (p := .root) rfl]
    by_cases hneg : c.excess < 0
    · rw [if_pos hneg]
      simp only [if_pos hneg, Label.root]
    · rw [if_neg hneg]
      simp only [if_neg hneg, Label.root]

/-- The same nodes are queued. -/
theorem activateRoots_eq (v : Solver) :
    Follows Eq (Forest.activateRoots (v.excess.map Forest.rootLabel)) (activateRoots v.cells) := by
  unfold Forest.activateRoots activateRoots
  have hsize : (v.excess.map Forest.rootLabel).size = v.cells.size := by
    rw [excess, Array.size_map, Array.size_map]
  rw [hsize]
  refine Follows.foldlM ?_ rfl
  rintro q _ u hu rfl
  have hlt : u < v.cells.size := List.mem_range.1 hu
  have hc : v.cells[u]? = some v.cells[u] := Array.getElem?_eq_getElem hlt
  rw [activateRoot, fetch_eq_ok_iff.2 hc]
  simp only [excess, Array.getElem?_map, hc, Option.map_some]
  by_cases hzero : v.cells[u].excess = 0
  · simp only [Forest.rootLabel, if_pos hzero, bind, Except.bind]
    exact .ok rfl
  · have hroot : ∃ l, Forest.rootLabel v.cells[u].excess = some l := by
      unfold Forest.rootLabel
      rw [if_neg hzero]
      split
      · exact ⟨_, rfl⟩
      · exact ⟨_, rfl⟩
    obtain ⟨l, hl⟩ := hroot
    simp only [hl, if_neg hzero, bind, Except.bind]
    exact .refl _

/-- **The roots are planted** in both, whatever the cells held. -/
theorem shows_init (hresidual : v.residual = s.residual) (hreparent : v.reparent = s.reparent) :
    Follows (fun s' w => w.Shows s'.residual s'.forest s'.reparent) s.restart v.init := by
  intro s' hs'
  obtain ⟨f, hf, hs'⟩ := bind_eq_ok_iff.1 hs'
  obtain rfl := Except.ok.inj hs'
  obtain ⟨q, hq, hf⟩ := bind_eq_ok_iff.1 hf
  obtain rfl := Except.ok.inj hf
  have hexcess : v.excess = s.residual.excess := congrArg Residual.excess hresidual
  rw [← hexcess] at hq
  obtain ⟨_, hq', rfl⟩ := activateRoots_eq v q hq
  refine ⟨_, bind_eq_ok_iff.2 ⟨q, hq', rfl⟩, ?_, ?_, hreparent⟩
  · have hmap : Cell.excess ∘ Cell.planted = Cell.excess := funext Cell.excess_planted
    rw [← hresidual]
    simp only [residual, excess, Array.map_map, hmap]
  · have hmap : Cell.label ∘ Cell.planted = Forest.rootLabel ∘ Cell.excess := funext label_planted
    simp only [forest, ← hexcess, excess, Array.map_map, hmap]

/-! ## Solving -/

/-- **A solve** of a solver that shows the residual network of a search goes through the solve of
the search, whatever is left over in its cells. -/
theorem exists_solve_of_searchOf (hr : r.Keeps m) (hN : N.WellFormed) (hm : N.Fits m)
    (hs : SearchOf r N s) (hok : s.solve r = .ok (s', as)) (hresidual : v.residual = s.residual)
    (hreparent : v.reparent = s.reparent) :
    ∃ n v', v.solve r n = .ok (v', as) ∧ v'.Shows s'.residual s'.forest s'.reparent := by
  obtain ⟨s₁, hrestart, hok⟩ := bind_eq_ok_iff.1 hok
  obtain ⟨⟨s₂, bs⟩, hfinish, hok⟩ := bind_eq_ok_iff.1 hok
  obtain ⟨⟨⟩, haudit, hok⟩ := bind_eq_ok_iff.1 hok
  obtain ⟨rfl, rfl⟩ := Prod.mk.inj (Except.ok.inj hok)
  obtain ⟨v₁, hinit, hshows₁⟩ := shows_init hresidual hreparent s₁ hrestart
  have hx : AtHead r N ⟨s₁, none⟩ := ⟨s, s₁, hs, hrestart, .refl⟩
  obtain ⟨⟨v₂, _⟩, hloop, hshows₂, rfl⟩ :=
    Shows.finish hr hN hm hx hshows₁ (Nat.le_max_left N.numNodes s₁.patience) []
      (Nat.le_max_right N.numNodes s₁.patience) _ hfinish
  obtain ⟨_, hcheck, rfl⟩ := hshows₂.check _ haudit
  refine ⟨max N.numNodes s₁.patience, v₂, ?_, hshows₂⟩
  unfold solve
  simp only [hinit, hloop, hcheck, bind, Except.bind, pure, Except.pure]

end Solver

end MinCut
