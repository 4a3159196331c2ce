/-
# Moments of a solve

Between two heads of the loop a solve passes through other moments: the queue is asked for the
next active node, a node has found a meeting and the path is about to be augmented, the forest
is between two orphans of an adopt phase, or an orphan is between two of the arcs around it.
Each moment is described by the functions of the search that lead to it from a head, in any
solve of the network, and what holds there is what these functions are specified to keep.

Key facts:
* `AtQueue.nextActive` : the search of the queue;
* `AtMeeting.met` and `AtHead.exists_meeting` : the search before an augmentation;
* `AtRepair.repairing` : the forest between two orphans, by induction on those settled so far;
* `AtArc.seeking` : the forest between two arcs around an orphan.
-/
import MinCut.Proofs.Heads

namespace MinCut

variable {r : Register} {N : Network} {m : Int} {x y : Run} {s : Search} {f g : Forest}
variable {mt : Meeting} {a : Augmentation} {i u : Nat}

/-! ## The moments -/

/-- At a head of one of the solves the next active node of the forest `f` is taken up: no node was
held, or the one that was hangs on nothing any more. -/
def AtQueue (r : Register) (N : Network) (f : Forest) : Prop :=
  ∃ x, AtHead r N x ∧ (x.held = none ∧ f = x.search.forest ∨
    ∃ i, x.held = some i ∧ x.search.forest.mark i false = .ok f ∧ f.isAttached i = .ok false)

/-- In one of the solves the node `i` has found the meeting `mt` and is held, and the search `s` is
about to augment the path through it. -/
def AtMeeting (r : Register) (N : Network) (i : Nat) (mt : Meeting) (s : Search) : Prop :=
  ∃ x f g h, AtHead r N x ∧ x.search.forest.choose x.held = .ok (some i, f) ∧
    f.grow x.search.residual.arcs x.search.reparent i = .ok (g, some mt) ∧
      g.mark i true = .ok h ∧ s = { x.search with forest := h }

/-- In one of the solves an augmentation has left the search `s`, with the node `i` held, and the
adopt phase that follows has come to the forest `f`, between two orphans. -/
inductive AtRepair (r : Register) (N : Network) (i : Nat) (s : Search) : Forest → Prop where
  | start {mt : Meeting} {s₀ : Search} {a : Augmentation} :
    AtMeeting r N i mt s₀ → s₀.augment r mt = .ok (s, a) → AtRepair r N i s s.forest
  | settled {f g : Forest} :
    AtRepair r N i s f → f.settleNext s.residual.arcs = .ok (some g) → AtRepair r N i s g

/-- In such a phase the orphan `u` looks for a parent and is between two of the arcs around it: the
arcs before have left the forest `g`. -/
def AtArc (r : Register) (N : Network) (i : Nat) (s : Search) (u : Nat) (g : Forest) : Prop :=
  ∃ f o l as bs best, AtRepair r N i s f ∧ f.orphans.next? = some (u, o) ∧
    f.labels[u]? = some (some l) ∧ s.residual.arcs.around u = .ok (as ++ bs) ∧
      Forest.considerAll s.residual.arcs l.side { f with orphans := o } none as = .ok (g, best)

/-- Every augmentation of a turn is made at a meeting. -/
theorem AtHead.exists_meeting (hx : AtHead r N x) (ht : x.turn r = .ok (.next y (some a))) :
    ∃ i mt s s', AtMeeting r N i mt s ∧ s.augment r mt = .ok (s', a) ∧
      s'.repair = .ok y.search := by
  rcases Run.turn_cases ht with ⟨f, -, ⟨⟩⟩ |
    ⟨i, f, g, hchoose, ⟨-, ⟨⟩⟩ | ⟨mt, y', a', hgrow, hmeet, ⟨⟩⟩⟩
  simp only [Search.meet, bind_eq_ok_iff] at hmeet
  obtain ⟨h, hmark, ⟨s', a'⟩, haugment, s'', hrepair, h'⟩ := hmeet
  cases h'
  exact ⟨i, mt, _, s', ⟨x, f, g, h, hx, hchoose, hgrow, hmark, rfl⟩, haugment, hrepair⟩

/-- The node that is taken up at a head, the meeting that it finds, and the search that is then
about to augment, if it finds one. -/
def Run.meeting? (x : Run) : Except Fault (Option (Nat × Meeting × Search)) := do
  match ← x.search.forest.choose x.held with
  | (none, _) => return none
  | (some i, f) =>
    match ← f.grow x.search.residual.arcs x.search.reparent i with
    | (_, none) => return none
    | (g, some mt) =>
      let h ← g.mark i true
      return some (i, mt, { x.search with forest := h })

theorem AtHead.atMeeting (hx : AtHead r N x) (h : x.meeting? = .ok (some (i, mt, s))) :
    AtMeeting r N i mt s := by
  obtain ⟨⟨o, f⟩, hchoose, h⟩ := bind_eq_ok_iff.1 h
  cases o with
  | none => cases h
  | some j =>
    obtain ⟨⟨g, o'⟩, hgrow, h⟩ := bind_eq_ok_iff.1 h
    cases o' with
    | none => cases h
    | some mt' =>
      obtain ⟨k, hmark, h⟩ := bind_eq_ok_iff.1 h
      cases h
      exact ⟨x, f, g, k, hx, hchoose, hgrow, hmark, rfl⟩

/-- What the search before an augmentation evaluates to is found at a meeting. -/
theorem exists_atMeeting_of_headAfter {α : Type} {p : Nat × Meeting × Search → Except Fault α}
    {b : α} (reparent : Bool) (n : Nat)
    (h : (headAfter r N reparent n).map (Option.map fun x => do
      let o ← x.meeting?
      o.mapM p) = .ok (some (.ok (some b)))) :
    ∃ i mt s, AtMeeting r N i mt s ∧ p (i, mt, s) = .ok b := by
  obtain ⟨x, hx, heval⟩ := exists_atHead_of_headAfter reparent n h
  obtain ⟨o, hmeet, heval⟩ := bind_eq_ok_iff.1 heval
  cases o with
  | none => cases heval
  | some q =>
    obtain ⟨i, mt, s⟩ := q
    change (p (i, mt, s)).map some = .ok (some b) at heval
    obtain ⟨b', hp, hb⟩ := map_eq_ok_iff.1 heval
    obtain rfl := Option.some.inj hb
    exact ⟨i, mt, s, hx.atMeeting hmeet, hp⟩

/-! ## What holds at the moments -/

/-- **The search of the queue** for an active node ends, for it takes a node out at every step. -/
theorem AtQueue.nextActive (hr : r.Keeps m) (hN : N.WellFormed) (hm : N.Fits m)
    (h : AtQueue r N f) :
    ∃ o g, EndsWithin f.active.waiting.length f.nextActive (o, g) := by
  obtain ⟨x, hx, hf⟩ := h
  have hready := (hx.sound hr hN hm).ready
  rcases hf with ⟨hheld, rfl⟩ | ⟨i, hheld, hmark, hatt⟩
  · rw [hheld] at hready
    obtain ⟨o, g, hok, -⟩ := Forest.nextActive_spec hready.sound hready.ordered hready.settled
      hready.tracks hready.watched
    exact ⟨o, g, hok⟩
  · rw [hheld] at hready
    obtain ⟨q, hq, htq, -, hw⟩ := hready.letGo
    obtain rfl := Except.ok.inj (hq.symm.trans hmark)
    have hset : Forest.Settled { x.search.forest with active := q } := hready.settled.of_labels rfl
    rw [Forest.isAttached_eq (f := { x.search.forest with active := q })
      hready.tracks.lt_of_held] at hatt
    obtain ⟨o, g, hok, -⟩ := Forest.nextActive_spec (f := { x.search.forest with active := q })
      (hready.sound.of_labels rfl) (hready.ordered.of_labels rfl (Nat.le_refl _)) hset htq
      (hw.of_free (hset.label_eq_none (Except.ok.inj hatt)))
    exact ⟨o, g, hok⟩

/-- **Before an augmentation** the invariant holds, with the node held that found the meeting. -/
theorem AtMeeting.met (hr : r.Keeps m) (hN : N.WellFormed) (hm : N.Fits m)
    (h : AtMeeting r N i mt s) : s.Met N (some i) mt := by
  obtain ⟨x, f, g, h, hx, hchoose, hgrow, hmark, rfl⟩ := h
  have hsound := hx.sound hr hN hm
  obtain ⟨o, f', hf, hch, hres, -⟩ := Forest.choose_spec hsound.ready
  obtain ⟨rfl, rfl⟩ := Prod.mk.inj (Except.ok.inj (hf.symm.trans hchoose))
  obtain ⟨l, hscan⟩ := hres
  obtain ⟨g', o, hg, hgrown, hom⟩ :=
    Forest.grow_spec hN hsound.balances.toWithin hscan x.search.reparent
  obtain ⟨rfl, rfl⟩ := Prod.mk.inj (Except.ok.inj (hg.symm.trans hgrow))
  have hnone : g'.orphans.order = [] := by
    rw [hgrown.orphans_eq, hch.orphans_eq]
    exact hsound.ready.listed.order_eq_nil hsound.ready.settled
  obtain ⟨h', hmark', hmet⟩ := Search.hold_spec (s := { x.search with forest := g' })
    hsound.balances hgrown.scanning hnone hgrown.stamp_lt hom
  obtain rfl := Except.ok.inj (hmark'.symm.trans hmark)
  exact hmet

/-- **Between two orphans** of an adopt phase the residual network is balanced, and the forest can
be repaired. -/
theorem AtRepair.repairing (hr : r.Keeps m) (hN : N.WellFormed) (hm : N.Fits m)
    (h : AtRepair r N i s f) : s.residual.Balances N ∧ f.Repairing s.residual (some i) := by
  induction h with
  | start hmeet haug =>
    obtain ⟨s', x, -, haugmented, hrep, hok⟩ := (hmeet.met hr hN hm).augment hN hm
    rw [hok r hr] at haug
    obtain ⟨rfl, -⟩ := Prod.mk.inj (Except.ok.inj haug)
    exact ⟨haugmented.balances, hrep⟩
  | settled _ hnext ih =>
    obtain ⟨hb, hrep⟩ := ih
    obtain ⟨u, o, ho, hsettle⟩ := Forest.settleNext_eq_ok hnext
    obtain ⟨f', hok, hrep', -⟩ := Forest.settle_spec hN hb.toWithin (hrep.seeking ho)
    obtain rfl := Except.ok.inj (hok.symm.trans hsettle)
    exact ⟨hb, hrep'⟩

/-- **What an orphan has considered** so far was measured, and nothing else was done. -/
theorem AtRepair.considering (hr : r.Keeps m) (hN : N.WellFormed) (hm : N.Fits m)
    (h : AtRepair r N i s f) {o : OrphanList} {l : Label} {as bs : List ArcRef}
    {best : Option Forest.Candidate} (hnext : f.orphans.next? = some (u, o))
    (hl : f.labels[u]? = some (some l)) (haround : s.residual.arcs.around u = .ok (as ++ bs))
    (hconsider : Forest.considerAll s.residual.arcs l.side { f with orphans := o } none as =
      .ok (g, best)) :
    s.residual.Balances N ∧ Forest.Remeasures { f with orphans := o } g ∧
      g.Seeking s.residual (some i) u := by
  obtain ⟨hb, hrep⟩ := h.repairing hr hN hm
  have hu := hrep.sound.lt_numNodes hb.toWithin (Forest.label_eq_some_iff.2 hl)
  have has : ∀ a ∈ as, ∃ j, s.residual.arcs.Leads a u j ∧ u ≠ j := by
    intro a ha
    have hmem : a ∈ as ++ bs := List.mem_append_left bs ha
    rw [← Except.ok.inj ((hb.arcs.around_eq u hu).symm.trans haround)] at hmem
    exact hb.arcs.mem_around.1 hmem
  obtain ⟨g', best', hok, hremeasures, hseek, -⟩ :=
    Forest.considerAll_spec hN hb.toWithin has (hrep.seeking hnext)
      (Forest.suits_none s.residual { f with orphans := o } u l.side)
  rw [hok] at hconsider
  obtain ⟨rfl, -⟩ := Prod.mk.inj (Except.ok.inj hconsider)
  exact ⟨hb, hremeasures, hseek⟩

/-- **Between two arcs** around an orphan only measurements are new. -/
theorem AtArc.seeking (hr : r.Keeps m) (hN : N.WellFormed) (hm : N.Fits m)
    (h : AtArc r N i s u g) : s.residual.Balances N ∧ g.Seeking s.residual (some i) u := by
  obtain ⟨f, o, l, as, bs, best, hrepair, hnext, hl, haround, hconsider⟩ := h
  obtain ⟨hb, -, hseek⟩ := hrepair.considering hr hN hm hnext hl haround hconsider
  exact ⟨hb, hseek⟩

end MinCut
