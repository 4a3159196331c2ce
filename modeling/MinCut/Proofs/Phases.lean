/-
# What holds at every moment of an adopt phase

While a way is marked, a node that was measured may hang on one that is not measured yet, so the
forest is not exact.  But its depth is the length of its chain of parents all the same, and this
holds at every moment of a phase.  The chain is never broken: no step gives a new label to a node
that was measured, for orphans are not measured, nor are the children of a node that leaves its
tree.

Key facts:
* `Truthful.measured` : writing the exact depth to a node;
* `Sane.next` : one step keeps the invariant and the measured nodes, one case a step;
* `Sane.leads` : any number of steps, by induction on them;
* `leads_of_settleNext` : settling an orphan is made of such steps;
* `adoption_takesNearest` : every phase of every solve.
-/
import MinCut.Proofs.Nearest

namespace MinCut

namespace Forest

variable {R : Residual} {N : Network} {t : ArcTable} {f g h : Forest} {i j u v d : Nat}
variable {l m : Label} {a : ArcRef} {as : List ArcRef} {vs : List Nat} {side : Segment}
variable {held : Option Nat} {best : Option Candidate} {M M' : Moment}

/-! ## Measured nodes -/

theorem KeepsMeasured.refl (f : Forest) : f.KeepsMeasured f := ⟨rfl, fun _ _ hl _ => hl⟩

theorem KeepsMeasured.trans (hfg : f.KeepsMeasured g) (hgh : g.KeepsMeasured h) :
    f.KeepsMeasured h where
  clock_eq := hgh.clock_eq.trans hfg.clock_eq
  label_eq u l hl hs :=
    hgh.label_eq u l (hfg.label_eq u l hl hs) (hs.trans hfg.clock_eq.symm)

/-- A node that is not measured may get any label. -/
theorem keepsMeasured_setLabel (hl : f.label u = some l) (hs : l.stamp ≠ f.clock)
    (o : Option Label) : f.KeepsMeasured (f.setLabel u o) where
  clock_eq := rfl
  label_eq w k hk hks := by
    have huw : u ≠ w := by
      rintro rfl
      rw [label_eq_some_iff, hk] at hl
      cases hl
      exact hs hks
    rw [labels_setLabel f u w o (lt_of_label hl), if_neg huw, hk]

/-- Exact measurements are true. -/
theorem Exact.truthful (he : f.Exact t) (ho : f.Ordered t) : f.Truthful t :=
  fun _ _ hl hs => he.exists_chain ho (label_eq_some_iff.2 hl) hs

/-- A measurement changes no parent. -/
theorem parents_measured (hl : f.label u = some l) (s d : Nat) : ∀ w k, f.label w = some k →
    ∃ m, (f.setLabel u (some (l.measured s d))).label w = some m ∧ m.parent = k.parent := by
  intro w k hk
  rw [label_setLabel (lt_of_label hl)]
  split
  · rename_i huw
    subst huw
    rw [hl] at hk
    cases hk
    exact ⟨_, rfl, rfl⟩
  · exact ⟨k, hk, rfl⟩

/-- **Writing the exact depth to a node** keeps all measurements true. -/
theorem Truthful.measured (h : f.Truthful t) (hl : f.label u = some l) (hc : Chain t f u vs) :
    (f.setLabel u (some (l.measured f.clock vs.length))).Truthful t := by
  intro w k hk hs
  rw [labels_setLabel f u w _ (lt_of_label hl)] at hk
  split at hk
  · rename_i huw
    subst huw
    cases hk
    exact ⟨vs, hc.of_parents (parents_measured hl _ _), rfl⟩
  · obtain ⟨ws, hws, hlen⟩ := h w k hk hs
    exact ⟨ws, hws.of_parents (parents_measured hl _ _), hlen⟩

/-! ## The invariant -/

/-- What is known while the orphan `u` of the tree `side` looks for a parent, with the arcs `as`
still ahead. -/
structure Looking (R : Residual) (held : Option Nat) (f : Forest) (u : Nat) (side : Segment)
    (best : Option Candidate) (as : List ArcRef) : Prop where
  seeking : f.Seeking R held u
  exists_side : ∃ l, f.label u = some l ∧ l.side = side
  suits : ∀ b, best = some b → f.Suits R u side b
  leads : ∀ a ∈ as, ∃ j, R.arcs.Leads a u j ∧ u ≠ j

/-- **What holds at a moment.**  While a way is marked, the forest is sound again once the rest of
the way is. -/
def Moment.Sane (R : Residual) (held : Option Nat) : Moment → Prop
  | between f => f.Repairing R held
  | seeking f u side best as => Looking R held f u side best as
  | marking f u side best as d v => f.Truthful R.arcs ∧
      (∃ vs, Chain R.arcs f v vs ∧ vs.length = d) ∧
        ∃ g, markBelow R.arcs f d v = .ok g ∧ Looking R held g u side best as
  | leaving f u side as =>
      Releasing R held u side as as f ∧ ∀ a ∈ as, ∃ j, R.arcs.Leads a u j

theorem Moment.Sane.truthful (h : M.Sane R held) : M.forest.Truthful R.arcs := by
  cases M with
  | between f => exact Exact.truthful (Repairing.exact h) (Repairing.ordered h)
  | seeking f u side best as => exact h.seeking.exact.truthful h.seeking.ordered
  | marking f u side best as d v => exact h.1
  | leaving f u side as => exact h.1.exact.truthful h.1.ordered

/-! ## One step -/

/-- The orphan is not measured. -/
theorem Looking.exists_label (h : Looking R held f u side best as) :
    ∃ l, f.label u = some l ∧ l.side = side ∧ l.stamp ≠ f.clock := by
  obtain ⟨l, hl, hside⟩ := h.exists_side
  exact ⟨l, hl, hside, h.seeking.exact.stamp_ne hl (h.seeking.parent_eq hl)⟩

/-- The next arc may be passed over. -/
theorem Looking.skip (h : Looking R held f u side best (a :: as)) :
    Looking R held f u side best as :=
  ⟨h.seeking, h.exists_side, h.suits, fun b hb => h.leads b (List.mem_cons_of_mem a hb)⟩

/-- What looking along an arc leaves behind, once everything is measured. -/
theorem Looking.considered {best' : Option Candidate} (hN : N.WellFormed) (hR : R.Within N)
    (h : Looking R held f u side best (a :: as))
    (hok : consider R.arcs side f best a = .ok (g, best')) :
    Looking R held g u side best' as := by
  obtain ⟨j, ha, hne⟩ := h.leads a List.mem_cons_self
  obtain ⟨g', b', hg', hr, he, hsuits⟩ := consider_spec hN hR h.seeking h.suits ha hne
  obtain ⟨rfl, rfl⟩ := Prod.mk.inj (Except.ok.inj (hg'.symm.trans hok))
  obtain ⟨l, hl, hside⟩ := h.exists_side
  obtain ⟨k, hk, hside', -⟩ := hr.exists_label hl
  exact ⟨h.seeking.of_remeasures hr he, ⟨k, hk, hside'.trans hside⟩, hsuits,
    fun b hb => h.leads b (List.mem_cons_of_mem a hb)⟩

/-- **Measuring a way in place** stamps at most the root at its end, which is true, and leaves the
rest of the way to be marked. -/
theorem measure_truthful (hs : f.Sound R) (ho : f.Ordered R.arcs) (he : f.Exact R.arcs)
    (hm : f.label j = some m) (hdepth : depth? R.arcs f f.labels.size j = .ok (some d)) :
    ∃ f₁ g, measure R.arcs f f.labels.size 0 j = .ok (some d, f₁) ∧
      markBelow R.arcs f₁ d j = .ok g ∧ markUp R.arcs f d j = .ok g ∧ f₁.Truthful R.arcs ∧
        f.KeepsMeasured f₁ ∧ ∃ vs, Chain R.arcs f₁ j vs ∧ vs.length = d := by
  obtain ⟨p, hp⟩ := exists_climbs hs ho hm
  have hlength := hp.length_lt ho
  obtain ⟨o, hok, hway⟩ := depth?_spec hp
  obtain rfl := Except.ok.inj (hdepth.symm.trans (hok _ (Nat.le_of_lt hlength)))
  obtain ⟨us, hus, hsub⟩ := hway d rfl
  have hnodup := hsub.nodup (hp.nodup ho)
  have hle : us.length ≤ f.labels.size := by
    have hnodes := hsub.length_le
    rw [Ascent.nodes, List.length_append, List.length_map, List.length_singleton] at hnodes
    omega
  obtain ⟨top, htop, hmeasure, hmark⟩ := hus.inPlace hnodup
  obtain ⟨g, hg, -⟩ := markUp_spec he hus hnodup
  have hmark' := (hmark f rfl (fun _ _ => rfl) fun _ _ hl _ => hl).trans hg
  have htrue := he.truthful ho
  obtain ⟨vs, hvs, hlen⟩ := hus.exists_chain he ho
  refine ⟨f.stamped top, g, by simpa using hmeasure _ 0 hle, hmark', hg, ?_⟩
  cases top with
  | none => exact ⟨htrue, .refl f, vs, hvs, hlen⟩
  | some w =>
    obtain ⟨-, k, hk, hks, hroot⟩ := htop w rfl
    rw [stamped_some hk]
    exact ⟨htrue.measured hk (.root (getElem?_labels hk) hroot), keepsMeasured_setLabel hk hks _,
      vs, hvs.of_parents (parents_measured hk _ _), hlen⟩

/-- **Looking along an arc**: the root at the end of the way may be stamped, which is true. -/
theorem Looking.look (hN : N.WellFormed) (hR : R.Within N)
    (h : Looking R held f u side best (a :: as))
    (hok : Moment.look R.arcs f u side best a as = .ok M) :
    M.Sane R held ∧ f.KeepsMeasured M.forest := by
  obtain ⟨j, ha, hne⟩ := h.leads a List.mem_cons_self
  have hs := h.seeking
  have hskip : (Moment.seeking f u side best as).Sane R held ∧
      f.KeepsMeasured (Moment.seeking f u side best as).forest := ⟨h.skip, .refl f⟩
  have hj := (hs.sound.lt_of_leads hN hR ha).2
  unfold Moment.look at hok
  simp only [treeResidual_eq ha, ha.head_eq, fetch_labels hj, bind, Except.bind, pure,
    Except.pure] at hok
  split at hok
  · obtain rfl := Except.ok.inj hok
    exact hskip
  · rename_i hzero
    cases hm : f.label j with
    | none =>
      rw [hm] at hok
      obtain rfl := Except.ok.inj hok
      exact hskip
    | some m =>
      rw [hm] at hok
      simp only at hok
      split at hok
      · obtain rfl := Except.ok.inj hok
        exact hskip
      · rename_i hside
        obtain ⟨o, hdepth, -⟩ := depth?_eq_some_iff hs.sound hs.ordered hs.exact hm
        cases o with
        | none =>
          rw [measure_of_depth?_eq_none hdepth] at hok
          obtain rfl := Except.ok.inj hok
          exact hskip
        | some d =>
          obtain ⟨f₁, g, hmeasure, hbelow, hup, htrue, hkeeps, hchain⟩ :=
            measure_truthful hs.sound hs.ordered hs.exact hm hdepth
          rw [hmeasure] at hok
          obtain rfl := Except.ok.inj hok
          have hconsider : consider R.arcs side f best a = .ok (g, nearer best ⟨a, d⟩) := by
            unfold consider
            simp only [treeResidual_eq ha, ha.head_eq, fetch_labels_of_label hm, if_neg hzero,
              if_neg hside, hdepth, hup, bind, Except.bind, pure, Except.pure]
          exact ⟨⟨htrue, hchain, g, hbelow, h.considered hN hR hconsider⟩, hkeeps⟩

/-- **Marking a node**: it was not measured before, and what is written to it is true. -/
theorem sane_mark (h : (Moment.marking f u side best as d v).Sane R held)
    (hok : Moment.mark R.arcs f u side best as d v = .ok M) :
    M.Sane R held ∧ f.KeepsMeasured M.forest := by
  obtain ⟨htrue, ⟨vs, hvs, hlen⟩, g, hbelow, hlook⟩ := h
  obtain ⟨o, ho, hok⟩ := bind_eq_ok_iff.1 hok
  cases o with
  | none => cases hok
  | some l =>
    have hl := label_eq_some_iff.2 (fetch_eq_ok_iff.1 ho)
    unfold markBelow at hbelow
    simp only [ho, bind, Except.bind, pure, Except.pure] at hok hbelow
    split at hok
    · rename_i hs
      rw [if_pos hs] at hbelow
      obtain rfl := Except.ok.inj hbelow
      obtain rfl := Except.ok.inj hok
      exact ⟨hlook, .refl f⟩
    · rename_i hs
      rw [if_neg hs] at hbelow
      cases d with
      | zero => cases hok
      | succ d =>
        rcases hvs.parent_cases (getElem?_labels hl) with ⟨hp, -⟩ | ⟨a, w, ws, hp, ha, rfl, hws⟩
        · simp only [hp] at hok
          cases hok
        · simp only [hp, ha] at hok hbelow
          obtain rfl := Except.ok.inj hok
          have hmeasured := htrue.measured hl hvs
          rw [hlen] at hmeasured
          exact ⟨⟨hmeasured, ⟨ws, hws.of_parents (parents_measured hl _ _), by simpa using hlen⟩, g,
            hbelow, hlook⟩, keepsMeasured_setLabel hl hs _⟩

/-- **Hanging the orphan on the best candidate, or letting it leave**: it was not measured. -/
theorem Looking.conclude (hR : R.Within N) (h : Looking R held f u side best [])
    (hok : Moment.conclude R.arcs f u side best = .ok M) :
    M.Sane R held ∧ f.KeepsMeasured M.forest := by
  obtain ⟨l, hl, rfl, hs⟩ := h.exists_label
  cases best with
  | some c =>
    obtain rfl := Except.ok.inj hok
    exact ⟨h.seeking.hang hl (h.suits c rfl) rfl rfl rfl rfl, keepsMeasured_setLabel hl hs _⟩
  | none =>
    obtain ⟨as, has, hok⟩ := bind_eq_ok_iff.1 hok
    obtain rfl := Except.ok.inj hok
    obtain ⟨as', has', hmem⟩ := h.seeking.exists_around hR
    obtain rfl := Except.ok.inj (has.symm.trans has')
    exact ⟨⟨h.seeking.free hl hmem, fun a ha => ((hmem a).1 ha).imp fun _ hj => hj.1⟩,
      keepsMeasured_setLabel hl hs _⟩

/-- Disowning a neighbour touches no measured node. -/
theorem Releasing.keepsMeasured_disown {bs cs : List ArcRef} {f' : Forest}
    (h : Releasing R held i side bs cs f) (hlabels : f'.labels = f.labels)
    (hclock : f'.clock = f.clock) (hm : f.label j = some m)
    (hok : disown R.arcs i j m f' = .ok g) : f'.KeepsMeasured g := by
  unfold disown at hok
  cases hp : m.parent with
  | root =>
    rw [hp] at hok
    obtain rfl := Except.ok.inj hok
    exact .refl f'
  | orphan =>
    rw [hp] at hok
    obtain rfl := Except.ok.inj hok
    exact .refl f'
  | via p =>
    simp only [hp] at hok
    obtain ⟨v, hv, hrest⟩ := bind_eq_ok_iff.1 hok
    split at hrest
    · rename_i hvi
      subst hvi
      obtain rfl := Except.ok.inj hrest
      obtain ⟨v', hlead, -⟩ := h.hung j m p hm hp
      obtain rfl := Except.ok.inj (hlead.head_eq.symm.trans hv)
      have hm' : f'.label j = some m := by rw [label_congr hlabels, hm]
      have hset := keepsMeasured_setLabel hm' (hclock ▸ h.stamp_ne hm hp hlead) (some m.orphaned)
      exact ⟨rfl, hset.label_eq⟩
    · obtain rfl := Except.ok.inj hrest
      exact .refl f'

/-- **One arc of a node that leaves its tree**: the child that is orphaned was not measured. -/
theorem Releasing.keepsMeasured {bs cs : List ArcRef} (h : Releasing R held i side bs cs f)
    (hok : releaseAlong R.arcs side i f a = .ok g) : f.KeepsMeasured g := by
  obtain ⟨j, -, hok⟩ := bind_eq_ok_iff.1 hok
  obtain ⟨o, ho, hok⟩ := bind_eq_ok_iff.1 hok
  cases o with
  | none =>
    obtain rfl := Except.ok.inj hok
    exact .refl f
  | some m =>
    have hm := label_eq_some_iff.2 (fetch_eq_ok_iff.1 ho)
    simp only at hok
    split at hok
    · obtain rfl := Except.ok.inj hok
      exact .refl f
    · obtain ⟨c, -, hok⟩ := bind_eq_ok_iff.1 hok
      split at hok
      · obtain ⟨f₁, hf₁, hok⟩ := bind_eq_ok_iff.1 hok
        obtain ⟨q, -, hf₁⟩ := bind_eq_ok_iff.1 hf₁
        obtain rfl := Except.ok.inj hf₁
        have hqueue : f.KeepsMeasured { f with active := q } := ⟨rfl, fun _ _ hk _ => hk⟩
        have hrest : KeepsMeasured { f with active := q } g :=
          h.keepsMeasured_disown rfl rfl hm hok
        exact hqueue.trans hrest
      · exact h.keepsMeasured_disown rfl rfl hm hok

/-- **What holds at a moment holds after the next step**, and no measured node was touched. -/
theorem Moment.Sane.next (hN : N.WellFormed) (hR : R.Within N) (h : M.Sane R held)
    (hok : M.next R.arcs = .ok (some M')) :
    M'.Sane R held ∧ M.forest.KeepsMeasured M'.forest := by
  cases M with
  | between f =>
    have hf : f.Repairing R held := h
    simp only [Moment.next, take] at hok
    cases hn : f.orphans.next? with
    | none =>
      rw [hn] at hok
      cases hok
    | some q =>
      obtain ⟨u, o⟩ := q
      have hseek := hf.seeking hn
      obtain ⟨l, hl, -⟩ := hseek.exists_label
      obtain ⟨as, has, hmem⟩ := hseek.exists_around hR
      simp only [hn, fetch_labels_of_label (f := f) hl, has, bind, Except.bind, pure,
        Except.pure] at hok
      obtain rfl := Option.some.inj (Except.ok.inj hok)
      exact ⟨⟨hseek, ⟨l, hl, rfl⟩, by simp, fun a ha => (hmem a).1 ha⟩, rfl, fun _ _ hk _ => hk⟩
  | seeking f u side best as =>
    cases as with
    | nil =>
      obtain ⟨M₁, hM₁, hok⟩ := bind_eq_ok_iff.1 hok
      obtain rfl := Option.some.inj (Except.ok.inj hok)
      exact Looking.conclude hR h hM₁
    | cons a as =>
      obtain ⟨M₁, hM₁, hok⟩ := bind_eq_ok_iff.1 hok
      obtain rfl := Option.some.inj (Except.ok.inj hok)
      exact Looking.look hN hR h hM₁
  | marking f u side best as d v =>
    obtain ⟨M₁, hM₁, hok⟩ := bind_eq_ok_iff.1 hok
    obtain rfl := Option.some.inj (Except.ok.inj hok)
    exact sane_mark h hM₁
  | leaving f u side as =>
    obtain ⟨hrel, hleads⟩ := h
    cases as with
    | nil =>
      obtain rfl := Option.some.inj (Except.ok.inj hok)
      exact ⟨⟨hrel.sound, hrel.ordered, hrel.exact, hrel.listed, hrel.tracks,
        hrel.watched_of_nil⟩, .refl f⟩
    | cons a as =>
      obtain ⟨g, hg, hok⟩ := bind_eq_ok_iff.1 hok
      obtain rfl := Option.some.inj (Except.ok.inj hok)
      obtain ⟨j, ha⟩ := hleads a List.mem_cons_self
      obtain ⟨g', hg', hrel', -⟩ := releaseAlong_spec hN hR hrel ha
      obtain rfl := Except.ok.inj (hg'.symm.trans hg)
      exact ⟨⟨hrel', fun b hb => hleads b (List.mem_cons_of_mem a hb)⟩, hrel.keepsMeasured hg⟩

/-- **What holds at a moment holds at all later ones**, by induction on the steps. -/
theorem Moment.Sane.leads (hN : N.WellFormed) (hR : R.Within N) (h : M.Sane R held)
    (hM : M.Leads R.arcs M') : M'.Sane R held ∧ M.forest.KeepsMeasured M'.forest := by
  induction hM with
  | refl => exact ⟨h, .refl _⟩
  | tail _ hstep ih =>
    obtain ⟨hsane, hkeeps⟩ := ih
    obtain ⟨hsane', hkeeps'⟩ := hsane.next hN hR hstep
    exact ⟨hsane', hkeeps.trans hkeeps'⟩

/-! ## Settling an orphan step by step -/

theorem Moment.leads_step (h : M.next t = .ok (some M')) : M.Leads t M' := .single h

/-- Marking a way goes on to the next arc. -/
theorem leads_of_markBelow (h : markBelow t f d v = .ok g) :
    (Moment.marking f u side best as d v).Leads t (.seeking g u side best as) := by
  induction d generalizing f v with
  | zero =>
    unfold markBelow at h
    obtain ⟨o, ho, h⟩ := bind_eq_ok_iff.1 h
    cases o with
    | none => cases h
    | some l =>
      simp only at h
      split at h
      · rename_i hs
        obtain rfl := Except.ok.inj h
        apply Moment.leads_step
        simp only [Moment.next, Moment.mark, ho, if_pos hs, bind, Except.bind, pure, Except.pure]
      · cases h
  | succ d ih =>
    unfold markBelow at h
    obtain ⟨o, ho, h⟩ := bind_eq_ok_iff.1 h
    cases o with
    | none => cases h
    | some l =>
      simp only at h
      split at h
      · rename_i hs
        obtain rfl := Except.ok.inj h
        apply Moment.leads_step
        simp only [Moment.next, Moment.mark, ho, if_pos hs, bind, Except.bind, pure, Except.pure]
      · rename_i hs
        cases hp : l.parent with
        | root =>
          rw [hp] at h
          cases h
        | orphan =>
          rw [hp] at h
          cases h
        | via a =>
          rw [hp] at h
          obtain ⟨w, hw, h⟩ := bind_eq_ok_iff.1 h
          refine .head ?_ (ih h)
          simp only [Moment.next, Moment.mark, ho, if_neg hs, hp, hw, bind, Except.bind, pure,
            Except.pure]

/-- Looking along an arc goes on to the next one. -/
theorem leads_of_considerInPlace {best' : Option Candidate}
    (h : considerInPlace t side f best a = .ok (g, best')) :
    (Moment.seeking f u side best (a :: as)).Leads t (.seeking g u side best' as) := by
  unfold considerInPlace at h
  obtain ⟨c, hc, h⟩ := bind_eq_ok_iff.1 h
  split at h
  · rename_i hzero
    obtain ⟨rfl, rfl⟩ := Prod.mk.inj (Except.ok.inj h)
    apply Moment.leads_step
    simp only [Moment.next, Moment.look, hc, if_pos hzero, bind, Except.bind, pure, Except.pure]
  · rename_i hzero
    obtain ⟨j, hj, h⟩ := bind_eq_ok_iff.1 h
    obtain ⟨o, ho, h⟩ := bind_eq_ok_iff.1 h
    cases o with
    | none =>
      obtain ⟨rfl, rfl⟩ := Prod.mk.inj (Except.ok.inj h)
      apply Moment.leads_step
      simp only [Moment.next, Moment.look, hc, if_neg hzero, hj, ho, bind, Except.bind, pure,
        Except.pure]
    | some m =>
      simp only at h
      split at h
      · rename_i hside
        obtain ⟨rfl, rfl⟩ := Prod.mk.inj (Except.ok.inj h)
        apply Moment.leads_step
        simp only [Moment.next, Moment.look, hc, if_neg hzero, hj, ho, if_pos hside, bind,
          Except.bind, pure, Except.pure]
      · rename_i hside
        obtain ⟨⟨depth, f₁⟩, hmeasure, h⟩ := bind_eq_ok_iff.1 h
        have hnext : (Moment.seeking f u side best (a :: as)).next t = .ok (some (match depth with
            | none => .seeking f₁ u side best as
            | some d => .marking f₁ u side (nearer best ⟨a, d⟩) as d j)) := by
          simp only [Moment.next, Moment.look, hc, if_neg hzero, hj, ho, if_neg hside, hmeasure,
            bind, Except.bind, pure, Except.pure]
          cases depth <;> rfl
        cases depth with
        | none =>
          obtain ⟨rfl, rfl⟩ := Prod.mk.inj (Except.ok.inj h)
          exact Moment.leads_step hnext
        | some d =>
          obtain ⟨g', hg', h⟩ := bind_eq_ok_iff.1 h
          obtain ⟨rfl, rfl⟩ := Prod.mk.inj (Except.ok.inj h)
          exact .head hnext (leads_of_markBelow hg')

/-- Looking along all arcs, by induction on them. -/
theorem leads_of_considerAll {best' : Option Candidate} (hN : N.WellFormed) (hR : R.Within N)
    (h : Looking R held f u side best as)
    (hok : considerAll R.arcs side f best as = .ok (g, best')) :
    (Moment.seeking f u side best as).Leads R.arcs (.seeking g u side best' []) := by
  induction as generalizing f best with
  | nil =>
    obtain ⟨rfl, rfl⟩ := Prod.mk.inj (Except.ok.inj hok)
    exact .refl
  | cons a as ih =>
    obtain ⟨⟨f₁, b₁⟩, h₁, hok⟩ := bind_eq_ok_iff.1 hok
    obtain ⟨j, ha, -⟩ := h.leads a List.mem_cons_self
    have hs := h.seeking
    obtain ⟨q, hq, hq'⟩ := considerInPlace_eq hs.sound hs.ordered hs.exact ha
      (hs.sound.lt_of_leads hN hR ha).2 side best
    obtain rfl := Except.ok.inj (hq'.symm.trans h₁)
    exact (leads_of_considerInPlace hq).trans (ih (h.considered hN hR h₁) hok)

/-- Leaving a tree, by induction on the arcs. -/
theorem leads_of_releaseAll (h : releaseAll t side u f as = .ok g) :
    (Moment.leaving f u side as).Leads t (.between g) := by
  induction as generalizing f with
  | nil =>
    obtain rfl := Except.ok.inj h
    exact Moment.leads_step rfl
  | cons a as ih =>
    obtain ⟨f₁, h₁, h⟩ := bind_eq_ok_iff.1 h
    refine .head ?_ (ih h)
    simp only [Moment.next, h₁, bind, Except.bind, pure, Except.pure]

/-- **Settling the next orphan** is made of steps from moment to moment. -/
theorem leads_of_settleNext (hN : N.WellFormed) (hR : R.Within N) (hf : f.Repairing R held)
    (hok : f.settleNext R.arcs = .ok (some g)) :
    (Moment.between f).Leads R.arcs (.between g) := by
  obtain ⟨u, o, hn, hsettle⟩ := settleNext_eq_ok hok
  have hseek := hf.seeking hn
  obtain ⟨l, hl, -⟩ := hseek.exists_label
  obtain ⟨as, has, hmem⟩ := hseek.exists_around hR
  have htake : (Moment.between f).next R.arcs =
      .ok (some (.seeking { f with orphans := o } u l.side none as)) := by
    simp only [Moment.next, Moment.take, hn, fetch_labels_of_label (f := f) hl, has, bind,
      Except.bind, pure, Except.pure]
  have hlook : Looking R held { f with orphans := o } u l.side none as :=
    ⟨hseek, ⟨l, hl, rfl⟩, by simp, fun a ha => (hmem a).1 ha⟩
  obtain ⟨f₁, best, hconsider, -⟩ :=
    considerAll_spec hN hR (fun b hb => (hmem b).1 hb) hseek hlook.suits
  have hseeking := leads_of_considerAll hN hR hlook hconsider
  simp only [settle, fetch_labels_of_label (f := f) hl, has, hconsider, bind, Except.bind]
    at hsettle
  refine .head htake (hseeking.trans ?_)
  cases best with
  | some c =>
    obtain rfl := Except.ok.inj hsettle
    exact Moment.leads_step rfl
  | none =>
    obtain ⟨arcs, harcs, hrelease⟩ := bind_eq_ok_iff.1 hsettle
    refine .head ?_ (leads_of_releaseAll hrelease)
    simp only [Moment.next, Moment.conclude, harcs, bind, Except.bind, pure, Except.pure]

end Forest

/-! ## Every phase of every solve -/

section

variable {r : Register} {N : Network} {bits i : Nat} {s : Search} {f : Forest}

/-- **Adoption takes the nearest parent.**  Between two orphans of an adopt phase of any solve of an
admissible network, the next orphan considers exactly the arcs that offer it a place, whatever was
measured before; it hangs on the nearest place that is offered, the first of several, one deeper and
measured at the present time, or it is free if there is no place.  At every moment from there on,
all measured nodes have chains of parents up to a root and their depths are the lengths of these;
and at no later moment of the phase any of them has another label. -/
theorem adoption_takesNearest (hr : r.IsMachine bits) (hN : N.Admissible r)
    (h : AtRepair r N i s f) :
    (∀ u o, f.orphans.next? = some (u, o) → ∃ l as best g, f.labels[u]? = some (some l) ∧
      s.residual.arcs.around u = .ok as ∧
      Forest.settle s.residual.arcs { f with orphans := o } u = .ok g ∧
      Forest.Considers s.residual.arcs { f with orphans := o } l.side as ∧
      Forest.Nearest s.residual.arcs { f with orphans := o } l.side as best ∧
      g.labels[u]? = some (best.map fun c => ⟨l.side, .via c.arc, f.clock, c.depth + 1⟩)) ∧
    (∀ M, (Forest.Moment.between f).Leads s.residual.arcs M →
      M.forest.Truthful s.residual.arcs ∧
        ∀ M', M.Leads s.residual.arcs M' → M.forest.KeepsMeasured M'.forest) ∧
    ∀ g, f.settleNext s.residual.arcs = .ok (some g) →
      (Forest.Moment.between f).Leads s.residual.arcs (.between g) := by
  have hwf := hN.toWellFormed
  obtain ⟨hb, hrep⟩ := h.repairing hr.keeps hwf (hN.fits hr)
  have hR := hb.toWithin
  refine ⟨?_, ?_, fun g hg => Forest.leads_of_settleNext hwf hR hrep hg⟩
  · intro u o hn
    have hseek := hrep.seeking hn
    obtain ⟨l, hl, -⟩ := hseek.exists_label
    obtain ⟨as, has, hmem⟩ := hseek.exists_around hR
    obtain ⟨g, hg, -⟩ := Forest.settle_spec hwf hR hseek
    obtain ⟨best, hnearest, hlabel⟩ := Forest.settle_nearest hwf hR hseek hl has hg
    exact ⟨l, as, best, g, Forest.getElem?_labels hl, has, hg,
      hseek.considers hwf hR fun a ha => (hmem a).1 ha, hnearest, hlabel⟩
  · intro M hM
    have hsane : (Forest.Moment.between f).Sane s.residual (some i) := hrep
    obtain ⟨hM, -⟩ := hsane.leads hwf hR hM
    exact ⟨hM.truthful, fun M' hM' => (hM.leads hwf hR hM').2⟩

/-- After the second augmentation of the detour node 2 is offered a place below node 1, which it
takes. -/
theorem adoption_takesNearest_detour : ∃ (i : Nat) (s : Search) (f g : Forest) (l : Label)
    (as : List ArcRef) (o : OrphanList), AtRepair (.signed 8) detour i s f ∧
    f.orphans.next? = some (2, o) ∧
    Forest.Nearest s.residual.arcs { f with orphans := o } l.side as (some ⟨⟨4, .reverse⟩, 2⟩) ∧
    g.labels[2]? = some (some ⟨.source, .via ⟨4, .reverse⟩, 3, 3⟩) ∧
    (Forest.Moment.between f).Leads s.residual.arcs (.between g) ∧
      g.Truthful s.residual.arcs := by
  have hrun : (headAfter (.signed 8) detour true 2).map (Option.map fun x => (do
      let o ← x.meeting?
      o.mapM fun q => do
        let p ← q.2.2.augment (.signed 8) q.2.1
        let g ← p.1.forest.settleNext p.1.residual.arcs
        return decide ((p.1.forest.orphans.next?).map Prod.fst = some 2 ∧
          g.map (fun g => g.labels[2]?) =
            some (some (some ⟨.source, .via ⟨4, .reverse⟩, 3, 3⟩))) :
      Except Fault (Option Bool))) = .ok (some (.ok (some true))) := by
    decide +kernel
  obtain ⟨x, hx, heval⟩ := exists_atHead_of_headAfter true 2 hrun
  obtain ⟨o, hmeet, heval⟩ := bind_eq_ok_iff.1 heval
  cases o with
  | none => cases heval
  | some q =>
    obtain ⟨i, mt, s₀⟩ := q
    obtain ⟨b, heval, hb⟩ := bind_eq_ok_iff.1 heval
    obtain rfl := Option.some.inj (Except.ok.inj hb)
    obtain ⟨⟨s, a⟩, haug, heval⟩ := bind_eq_ok_iff.1 heval
    obtain ⟨g, hsettle, heval⟩ := bind_eq_ok_iff.1 heval
    obtain ⟨hfirst, hmap⟩ := of_decide_eq_true (Except.ok.inj heval)
    obtain ⟨⟨u, o⟩, hnext, rfl⟩ := Option.map_eq_some_iff.1 hfirst
    obtain ⟨g, rfl, hlabel⟩ := Option.map_eq_some_iff.1 hmap
    have hat : AtRepair (.signed 8) detour i s s.forest := .start (hx.atMeeting hmeet) haug
    obtain ⟨hnearest, hmoments, hsteps⟩ :=
      adoption_takesNearest ⟨by decide, Or.inl rfl⟩ detour_admissible hat
    obtain ⟨l, as, best, g', -, -, hok, -, hbest, hlabel'⟩ := hnearest _ _ hnext
    have hg : s.forest.settleNext s.residual.arcs = .ok (some g') := by
      simp only [Forest.settleNext, hnext, hok, bind, Except.bind, pure, Except.pure]
    obtain rfl := Option.some.inj (Except.ok.inj (hg.symm.trans hsettle))
    have hleads := hsteps g' hg
    -- the label tells which candidate it was
    rw [hlabel] at hlabel'
    obtain ⟨⟨arc, depth⟩, rfl, heq⟩ := Option.map_eq_some_iff.1 (Option.some.inj hlabel').symm
    simp only [Label.mk.injEq, Parent.via.injEq] at heq
    obtain ⟨-, rfl, -, hdepth⟩ := heq
    obtain rfl : depth = 2 := by omega
    exact ⟨i, s, s.forest, g', l, as, o, hat, hnext, hbest, hlabel, hleads,
      (hmoments _ hleads).1⟩

end

end MinCut
