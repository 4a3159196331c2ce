/-
# Taking the nearest parent

The depths that an orphan compares come from three places: from the way that it walks, from nodes
that an earlier way of the phase has marked, and from roots.  In a forest with exact measurements
they all say the same, the number of nodes on the chain of parents, and a walk finds no depth just
where there is no such chain.  So the candidate that is left after all arcs is the nearest of the
places that are offered, and the first of several.

Key facts:
* `depth?_eq_some_iff` : a walk finds the exact depth, or there is no chain;
* `consider_nearer` : one arc around an orphan;
* `considerAll_nearest` : all arcs, by induction on those already considered;
* `settle_nearest` : what becomes of the orphan.
-/
import MinCut.Forest.Phase
import MinCut.Proofs.InPlace
import MinCut.Proofs.Repairs

namespace MinCut

namespace Forest

variable {R : Residual} {N : Network} {t : ArcTable} {f g : Forest} {i u d n : Nat} {l : Label}
variable {a : ArcRef} {as : List ArcRef} {vs us : List Nat} {side : Segment} {held : Option Nat}
variable {best : Option Candidate}

/-! ## Chains and depths -/

/-- Chains depend on the parents alone. -/
theorem Chain.of_parents (hfg : ∀ w l, f.label w = some l →
    ∃ m, g.label w = some m ∧ m.parent = l.parent) (hc : Chain t f u vs) : Chain t g u vs := by
  induction hc with
  | root hl hp =>
    obtain ⟨m, hm, hp'⟩ := hfg _ _ (label_eq_some_iff.2 hl)
    exact .root (getElem?_labels hm) (hp'.trans hp)
  | via hl hp ha _ ih =>
    obtain ⟨m, hm, hp'⟩ := hfg _ _ (label_eq_some_iff.2 hl)
    exact .via (getElem?_labels hm) (hp'.trans hp) ha ih

/-- **A measured node has a chain**, whose length is its depth: its parent was measured as well and
lies one step less deep. -/
theorem Exact.exists_chain (he : f.Exact t) (ho : f.Ordered t) (hu : f.label u = some l)
    (hs : l.stamp = f.clock) : ∃ vs, Chain t f u vs ∧ vs.length = l.depth := by
  induction hd : l.depth generalizing u l with
  | zero =>
    have hpos := ho.depth_pos u l hu
    omega
  | succ n ih =>
    rcases he u l hu hs with ⟨hroot, hone⟩ | ⟨a, v, m, hp, ha, hm, hms, hdepth⟩
    · exact ⟨[u], .root (getElem?_labels hu) hroot, by simpa using hone.symm.trans hd⟩
    · obtain ⟨vs, hvs, hlen⟩ := ih hm hms (by omega)
      exact ⟨u :: vs, .via (getElem?_labels hu) hp ha.head_eq hvs, by simp [hlen]⟩

/-- The chain of a node at which a way begins has the length of the way. -/
theorem Way.exists_chain (he : f.Exact t) (ho : f.Ordered t) (h : Way t f u us d) :
    ∃ vs, Chain t f u vs ∧ vs.length = d := by
  induction h with
  | measured hu hs => exact he.exists_chain ho hu hs
  | root hu _ hp => exact ⟨_, .root (getElem?_labels hu) hp, rfl⟩
  | via hu _ hp ha _ ih =>
    obtain ⟨vs, hvs, hlen⟩ := ih
    exact ⟨_, .via (getElem?_labels hu) hp ha.head_eq hvs, by simp [hlen]⟩

/-- A walk along a chain finds a depth. -/
theorem Chain.depth?_ne_none (hc : Chain t f u vs) (n : Nat) : depth? t f n u ≠ .ok none := by
  induction hc generalizing n with
  | root hl hp =>
    intro h
    obtain ⟨k, hk, -, hp' | ⟨a, v, j, hp', -⟩⟩ := depth?_eq_none h <;>
      · rw [fetch_eq_ok_iff, hl] at hk
        cases hk
        rw [hp] at hp'
        cases hp'
  | via hl hp ha _ ih =>
    intro h
    obtain ⟨k, hk, -, hp' | ⟨b, v, j, hp', hb, -, hrest⟩⟩ := depth?_eq_none h <;>
      rw [fetch_eq_ok_iff, hl] at hk <;> cases hk <;> rw [hp] at hp' <;> cases hp'
    obtain rfl := Except.ok.inj (ha.symm.trans hb)
    exact ih j hrest

/-- **A walk finds the exact depth**, from wherever the depths on its way come. -/
theorem depth?_eq_some_iff (hs : f.Sound R) (ho : f.Ordered R.arcs) (he : f.Exact R.arcs)
    (hu : f.label u = some l) : ∃ o, depth? R.arcs f f.labels.size u = .ok o ∧
      ∀ d, o = some d ↔ ∃ vs, Chain R.arcs f u vs ∧ vs.length = d := by
  obtain ⟨p, hp⟩ := exists_climbs hs ho hu
  obtain ⟨o, hok, hway⟩ := depth?_spec hp
  have hdepth := hok _ (Nat.le_of_lt (hp.length_lt ho))
  refine ⟨o, hdepth, fun d => ⟨fun hd => ?_, ?_⟩⟩
  · obtain ⟨us, hus, -⟩ := hway d hd
    exact hus.exists_chain he ho
  · rintro ⟨vs, hvs, rfl⟩
    cases o with
    | none => exact absurd hdepth (hvs.depth?_ne_none _)
    | some e =>
      obtain ⟨us, hus, -⟩ := hway e rfl
      obtain ⟨ws, hws, rfl⟩ := hus.exists_chain he ho
      rw [hvs.unique hws]

/-! ## What is offered -/

/-- What is offered depends on the sides and the parents alone. -/
theorem Offers.of_parents (hfg : ∀ w l, f.label w = some l →
    ∃ m, g.label w = some m ∧ m.side = l.side ∧ m.parent = l.parent)
    (h : f.Offers t side a d) : g.Offers t side a d := by
  obtain ⟨j, m, c, vs, hc, hpos, hj, hm, hside, hchain, hlen⟩ := h
  obtain ⟨k, hk, hside', -⟩ := hfg j m (label_eq_some_iff.2 hm)
  refine ⟨j, k, c, vs, hc, hpos, hj, getElem?_labels hk, hside'.trans hside, ?_, hlen⟩
  exact hchain.of_parents fun w l hl => (hfg w l hl).imp fun m hm => ⟨hm.1, hm.2.2⟩

/-- Measurements change no offer. -/
theorem Remeasures.offers_iff (h : f.Remeasures g) :
    g.Offers t side a d ↔ f.Offers t side a d := by
  constructor
  · refine Offers.of_parents fun w m hm => ?_
    obtain ⟨l, hl, hside, hp, -⟩ := h.exists_label_of hm
    exact ⟨l, hl, hside.symm, hp.symm⟩
  · exact Offers.of_parents fun w l hl => h.exists_label hl

/-- An arc offers one place at most. -/
theorem Offers.unique {e : Nat} (h : f.Offers t side a d) (h' : f.Offers t side a e) : d = e := by
  obtain ⟨j, -, -, vs, -, -, hj, -, -, hvs, rfl⟩ := h
  obtain ⟨j', -, -, ws, -, -, hj', -, -, hws, rfl⟩ := h'
  obtain rfl := Except.ok.inj (hj.symm.trans hj')
  rw [hvs.unique hws]

/-- **One arc** around an orphan: it is considered if it offers a place, at the depth of the place,
and leaves everything as it was otherwise. -/
theorem consider_nearer {j : Nat} {best' : Option Candidate} (hs : f.Sound R)
    (ho : f.Ordered R.arcs) (he : f.Exact R.arcs) (hR : R.Within N) (ha : R.arcs.Leads a i j)
    (hok : consider R.arcs side f best a = .ok (g, best')) :
    (∃ d, f.Offers R.arcs side a d ∧ best' = nearer best ⟨a, d⟩) ∨
      (∀ d, ¬ f.Offers R.arcs side a d) ∧ g = f ∧ best' = best := by
  have hnone : (∀ m, f.label j = some m → m.side = side →
      R.arcs.capacity (treeArc side a) ≠ 0 → ∀ vs, ¬ Chain R.arcs f j vs) →
        ∀ d, ¬ f.Offers R.arcs side a d := by
    rintro hno d ⟨j', m, c, vs, hc, hpos, hj', hm, hside, hchain, -⟩
    obtain rfl := Except.ok.inj (ha.head_eq.symm.trans hj')
    obtain rfl := Except.ok.inj ((treeResidual_eq ha side).symm.trans hc)
    exact hno m (label_eq_some_iff.2 hm) hside (by omega) vs hchain
  have hnonneg := hR.arcs.nonneg (treeArc side a)
  unfold consider at hok
  simp only [treeResidual_eq ha, ha.head_eq, bind, Except.bind, pure, Except.pure] at hok
  split at hok
  · rename_i hzero
    obtain ⟨rfl, rfl⟩ := Prod.mk.inj (Except.ok.inj hok)
    exact Or.inr ⟨hnone fun m _ _ hc => absurd hzero hc, rfl, rfl⟩
  · rename_i hcap
    obtain ⟨o, hfetch, hok⟩ := bind_eq_ok_iff.1 hok
    cases o with
    | none =>
      obtain ⟨rfl, rfl⟩ := Prod.mk.inj (Except.ok.inj hok)
      refine Or.inr ⟨hnone fun m hm => ?_, rfl, rfl⟩
      rw [fetch_eq_ok_iff] at hfetch
      rw [label_eq_some_iff, hfetch] at hm
      cases hm
    | some m =>
      have hm := label_eq_some_iff.2 (fetch_eq_ok_iff.1 hfetch)
      simp only at hok
      split at hok
      · rename_i hside
        obtain ⟨rfl, rfl⟩ := Prod.mk.inj (Except.ok.inj hok)
        refine Or.inr ⟨hnone fun k hk hk' => ?_, rfl, rfl⟩
        rw [hm] at hk
        cases hk
        exact absurd hk' hside
      · rename_i hside
        obtain ⟨o, hdepth, hchain⟩ := depth?_eq_some_iff hs ho he hm
        simp only [hdepth] at hok
        cases o with
        | none =>
          obtain ⟨rfl, rfl⟩ := Prod.mk.inj (Except.ok.inj hok)
          refine Or.inr ⟨hnone fun k hk hk' _ vs hvs => ?_, rfl, rfl⟩
          cases (hchain vs.length).2 ⟨vs, hvs, rfl⟩
        | some d =>
          obtain ⟨g', -, hok⟩ := bind_eq_ok_iff.1 hok
          obtain ⟨rfl, rfl⟩ := Prod.mk.inj (Except.ok.inj hok)
          obtain ⟨vs, hvs, hlen⟩ := (hchain d).1 rfl
          exact Or.inl ⟨d, ⟨j, m, _, vs, treeResidual_eq ha side, by omega, ha.head_eq,
            getElem?_labels hm, not_not.1 hside, hvs, hlen⟩, rfl⟩

/-! ## The nearest place -/

/-- A place that is compared with the nearest one so far. -/
theorem Nearest.offered (h : f.Nearest t side as best) (ha : f.Offers t side a d) :
    f.Nearest t side (as ++ [a]) (nearer best ⟨a, d⟩) := by
  have hlast : ∀ b ∈ [a], ∀ e, f.Offers t side b e → d ≤ e := by
    intro b hb e he
    obtain rfl := List.mem_singleton.1 hb
    exact Nat.le_of_eq (ha.unique he)
  cases best with
  | none => exact ⟨as, [], rfl, ha, fun b hb e he => absurd he (h b hb e), by simp⟩
  | some c =>
    obtain ⟨before, after, rfl, hc, hbefore, hafter⟩ := h
    simp only [nearer]
    split
    · rename_i hlt
      refine ⟨before ++ c.arc :: after, [], rfl, ha, ?_, by simp⟩
      intro b hb e he
      rcases List.mem_append.1 hb with hb | hb
      · exact Nat.lt_trans hlt (hbefore b hb e he)
      · rcases List.mem_cons.1 hb with rfl | hb
        · rwa [he.unique hc]
        · exact Nat.lt_of_lt_of_le hlt (hafter b hb e he)
    · rename_i hle
      refine ⟨before, after ++ [a], by simp, hc, hbefore, fun b hb e he => ?_⟩
      rcases List.mem_append.1 hb with hb | hb
      · exact hafter b hb e he
      · exact (Nat.le_of_not_lt hle).trans (hlast b hb e he)

/-- An arc that offers no place changes nothing. -/
theorem Nearest.refused (h : f.Nearest t side as best) (ha : ∀ d, ¬ f.Offers t side a d) :
    f.Nearest t side (as ++ [a]) best := by
  cases best with
  | none =>
    intro b hb d
    rcases List.mem_append.1 hb with hb | hb
    · exact h b hb d
    · obtain rfl := List.mem_singleton.1 hb
      exact ha d
  | some c =>
    obtain ⟨before, after, rfl, hc, hbefore, hafter⟩ := h
    refine ⟨before, after ++ [a], by simp, hc, hbefore, fun b hb e he => ?_⟩
    rcases List.mem_append.1 hb with hb | hb
    · exact hafter b hb e he
    · obtain rfl := List.mem_singleton.1 hb
      exact absurd he (ha e)

/-- **All arcs** around an orphan, by induction on those that are still ahead: what was measured at
the arcs before changes no offer. -/
theorem considerAll_nearest {f₀ : Forest} {bs : List ArcRef} {best' : Option Candidate}
    (hN : N.WellFormed) (hR : R.Within N) (has : ∀ a ∈ as, ∃ j, R.arcs.Leads a i j ∧ i ≠ j)
    (h : f.Seeking R held i) (hbest : ∀ b, best = some b → f.Suits R i side b)
    (h₀ : f₀.Remeasures f) (hnearest : f₀.Nearest R.arcs side bs best)
    (hok : considerAll R.arcs side f best as = .ok (g, best')) :
    f₀.Nearest R.arcs side (bs ++ as) best' := by
  induction as generalizing f best bs with
  | nil =>
    obtain ⟨-, rfl⟩ := Prod.mk.inj (Except.ok.inj hok)
    rwa [List.append_nil]
  | cons a as ih =>
    obtain ⟨j, ha, hne⟩ := has a List.mem_cons_self
    obtain ⟨f₁, b₁, h₁, hr₁, he₁, hb₁⟩ := consider_spec hN hR h hbest ha hne
    simp only [considerAll, h₁, bind, Except.bind] at hok
    have hnearest₁ : f₀.Nearest R.arcs side (bs ++ [a]) b₁ := by
      rcases consider_nearer h.sound h.ordered h.exact hR ha h₁ with ⟨d, hd, rfl⟩ | ⟨hno, -, rfl⟩
      · exact hnearest.offered (h₀.offers_iff.1 hd)
      · exact hnearest.refused fun d hd => hno d (h₀.offers_iff.2 hd)
    have hrest := ih (fun b hb => has b (List.mem_cons_of_mem a hb)) (h.of_remeasures hr₁ he₁)
      hb₁ (h₀.trans hr₁) hnearest₁ hok
    rwa [List.append_assoc] at hrest

/-! ## What becomes of an orphan -/

/-- The arcs around a node of a tree lead to other nodes. -/
theorem Seeking.exists_around (h : f.Seeking R held i) (hR : R.Within N) :
    ∃ as, R.arcs.around i = .ok as ∧ ∀ a, a ∈ as ↔ ∃ j, R.arcs.Leads a i j ∧ i ≠ j := by
  obtain ⟨l, hl, -⟩ := h.exists_label
  exact ⟨_, hR.arcs.around_eq i (h.sound.lt_numNodes hR hl), fun a => hR.arcs.mem_around⟩

/-- **An orphan considers exactly what it is offered**, arc by arc. -/
theorem Seeking.considers (hN : N.WellFormed) (hR : R.Within N) (h : f.Seeking R held i)
    (has : ∀ b ∈ as, ∃ j, R.arcs.Leads b i j ∧ i ≠ j) : f.Considers R.arcs side as := by
  rintro before a after rfl
  obtain ⟨j, ha, hne⟩ := has a (by simp)
  obtain ⟨g, best, hg, hr, hseek, hsuits⟩ :=
    considerAll_spec hN hR (fun b hb => has b (List.mem_append_left _ hb)) h (suits_none R f i side)
  obtain ⟨g', best', hg', -⟩ := consider_spec hN hR hseek hsuits ha hne
  refine ⟨g, best, g', best', hg, hg', ?_⟩
  have hcases := consider_nearer hseek.sound hseek.ordered hseek.exact hR ha hg'
  simpa only [hr.offers_iff] using hcases

/-- **An orphan takes the nearest parent**, or it leaves its tree if there is none. -/
theorem settle_nearest (hN : N.WellFormed) (hR : R.Within N) (h : f.Seeking R held i)
    (hl : f.label i = some l) (has : R.arcs.around i = .ok as)
    (hok : settle R.arcs f i = .ok g) : ∃ best, f.Nearest R.arcs l.side as best ∧
      g.labels[i]? = some (best.map fun c => ⟨l.side, .via c.arc, f.clock, c.depth + 1⟩) := by
  obtain ⟨as', has', hmem⟩ := h.exists_around hR
  obtain rfl := Except.ok.inj (has.symm.trans has')
  obtain ⟨f₁, best, hconsider, hr, -⟩ :=
    considerAll_spec hN hR (fun b hb => (hmem b).1 hb) h (suits_none R f i l.side)
  have hnil : f.Nearest R.arcs l.side [] none := by simp [Nearest]
  have hnearest := considerAll_nearest hN hR (fun b hb => (hmem b).1 hb) h
    (suits_none R f i l.side) (.refl f) hnil hconsider
  rw [List.nil_append] at hnearest
  have hlt : i < f₁.labels.size := hr.size_eq ▸ lt_of_label hl
  have hsize : g.labels.size = f.labels.size := by
    obtain ⟨g', hg', -, hset, -⟩ := settle_spec hN hR h
    obtain rfl := Except.ok.inj (hg'.symm.trans hok)
    exact hset.size_eq
  refine ⟨best, hnearest, ?_⟩
  simp only [settle, fetch_labels_of_label hl, has, hconsider, bind, Except.bind] at hok
  cases best with
  | some c =>
    obtain rfl := Except.ok.inj hok
    rw [labels_setLabel f₁ i i _ hlt, if_pos rfl, hr.clock_eq]
    rfl
  | none =>
    obtain ⟨arcs, -, hok⟩ := bind_eq_ok_iff.1 hok
    have hfree : (f₁.setLabel i none).label i = none := by rw [label_setLabel hlt, if_pos rfl]
    have hspares := releaseAll_spares hfree hok
    exact getElem?_labels_of_free (hsize ▸ lt_of_label hl) (hspares.sides.eq_none hfree)

end Forest

end MinCut
