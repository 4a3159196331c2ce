/-
# Measuring the way to a root

While orphans are settled, every way up is measured as it is walked, and the depths found are
written to its nodes together with the present time.  A node that carries the present time is
therefore known to hang on its root, at exactly the depth that its label says; nothing else
about the forest changes.

Key facts:
* `depth?_spec` : walking up finds the end of the way, and its length if it ends at a root;
* `markUp_spec` : writing the depths down keeps all measured nodes exact, by induction on the
  way;
* `measure_spec` : both together, from any node of a tree;
* `Remeasures.ordered` : a forest with exact measurements stays ordered.
-/
import MinCut.Forest.Adoption
import MinCut.Proofs.Choice

namespace MinCut

namespace Forest

variable {R : Residual} {t : ArcTable} {f g h : Forest} {u v w d : Nat} {l m : Label}
variable {a : ArcRef} {us : List Nat}

/-! ## Measured nodes -/

/-- Every node measured at the present time hangs on its root through nodes measured at the
present time, and its depth is exact. -/
def Exact (t : ArcTable) (f : Forest) : Prop :=
  ∀ u l, f.label u = some l → l.stamp = f.clock →
    l.parent = .root ∧ l.depth = 1 ∨
      ∃ a v m, l.parent = .via a ∧ t.Leads a u v ∧ f.label v = some m ∧ m.stamp = f.clock ∧
        l.depth = m.depth + 1

/-- An orphan is never measured. -/
theorem Exact.stamp_ne (h : f.Exact t) (hu : f.label u = some l) (hp : l.parent = .orphan) :
    l.stamp ≠ f.clock := by
  intro hs
  rcases h u l hu hs with ⟨hroot, -⟩ | ⟨a, v, m, hvia, -⟩
  · rw [hp] at hroot
    cases hroot
  · rw [hp] at hvia
    cases hvia

/-- A node that was not measured may get another label, or none: no measured node hangs on it. -/
theorem Exact.setLabel {o : Option Label} (h : f.Exact t) (hu : u < f.labels.size)
    (hold : ∀ k, f.label u = some k → k.stamp ≠ f.clock)
    (hnew : ∀ k, o = some k → k.stamp = f.clock →
      ∃ a v m, k.parent = .via a ∧ t.Leads a u v ∧ u ≠ v ∧ f.label v = some m ∧
        m.stamp = f.clock ∧ k.depth = m.depth + 1) : (f.setLabel u o).Exact t := by
  intro w l hw hs
  rw [label_setLabel hu] at hw
  split at hw
  · rename_i huw
    subst huw
    obtain ⟨a, v, m, hp, ha, hne, hm, hms, hd⟩ := hnew l hw hs
    exact Or.inr ⟨a, v, m, hp, ha, by rw [label_setLabel hu, if_neg hne, hm], hms, hd⟩
  · rcases h w l hw hs with hroot | ⟨a, v, m, hp, ha, hm, hms, hd⟩
    · exact Or.inl hroot
    · have huv : u ≠ v := by
        rintro rfl
        exact hold m hm hms
      exact Or.inr ⟨a, v, m, hp, ha, by rw [label_setLabel hu, if_neg huv, hm], hms, hd⟩

/-- New measurements change the labels of nodes not yet measured, and nothing but the
measurement of a label. -/
structure Remeasures (f g : Forest) : Prop where
  size_eq : g.labels.size = f.labels.size
  clock_eq : g.clock = f.clock
  active_eq : g.active = f.active
  orphans_eq : g.orphans = f.orphans
  label_eq_or : ∀ u, g.label u = f.label u ∨
    ∃ l d, f.label u = some l ∧ l.stamp ≠ f.clock ∧ g.label u = some (l.measured f.clock d)

theorem Remeasures.refl (f : Forest) : f.Remeasures f :=
  ⟨rfl, rfl, rfl, rfl, fun _ => Or.inl rfl⟩

theorem Remeasures.trans (hfg : f.Remeasures g) (hgh : g.Remeasures h) : f.Remeasures h where
  size_eq := hgh.size_eq.trans hfg.size_eq
  clock_eq := hgh.clock_eq.trans hfg.clock_eq
  active_eq := hgh.active_eq.trans hfg.active_eq
  orphans_eq := hgh.orphans_eq.trans hfg.orphans_eq
  label_eq_or u := by
    rcases hgh.label_eq_or u with h₂ | ⟨k, e, hk, hs, h₂⟩
    · rw [h₂]
      exact hfg.label_eq_or u
    · rw [hfg.clock_eq] at hs h₂
      rcases hfg.label_eq_or u with h₁ | ⟨l, d, hl, -, h₁⟩
      · exact Or.inr ⟨k, e, by rw [← h₁, hk], hs, h₂⟩
      · rw [h₁] at hk
        cases hk
        exact absurd rfl hs

/-- A measured node keeps its label. -/
theorem Remeasures.label_of_measured (hfg : f.Remeasures g) (hu : f.label u = some l)
    (hs : l.stamp = f.clock) : g.label u = some l := by
  rcases hfg.label_eq_or u with h₁ | ⟨k, d, hk, hs', -⟩
  · rw [h₁, hu]
  · rw [hu] at hk
    cases hk
    exact absurd hs hs'

/-- No label is lost, and side and parent stay. -/
theorem Remeasures.exists_label (hfg : f.Remeasures g) (hu : f.label u = some l) :
    ∃ m, g.label u = some m ∧ m.side = l.side ∧ m.parent = l.parent := by
  rcases hfg.label_eq_or u with h₁ | ⟨k, d, hk, -, h₁⟩
  · exact ⟨l, by rw [h₁, hu], rfl, rfl⟩
  · rw [hu] at hk
    cases hk
    exact ⟨_, h₁, rfl, rfl⟩

/-- No label is new, and a label is the same unless it was measured now. -/
theorem Remeasures.exists_label_of (hfg : f.Remeasures g) (hu : g.label u = some m) :
    ∃ l, f.label u = some l ∧ m.side = l.side ∧ m.parent = l.parent ∧
      (m = l ∨ l.stamp ≠ f.clock ∧ m.stamp = f.clock) := by
  rcases hfg.label_eq_or u with h₁ | ⟨k, d, hk, hs, h₁⟩
  · exact ⟨m, by rw [← h₁, hu], rfl, rfl, Or.inl rfl⟩
  · rw [hu] at h₁
    cases h₁
    exact ⟨k, hk, rfl, rfl, Or.inr ⟨hs, rfl⟩⟩

theorem Remeasures.sound (hfg : f.Remeasures g) (hs : f.Sound R) : g.Sound R where
  size_eq := by rw [hfg.size_eq, hs.size_eq]
  root_of_excess u hu := by
    obtain ⟨l, hl, hp⟩ := hs.root_of_excess u hu
    obtain ⟨m, hm, -, hp'⟩ := hfg.exists_label hl
    exact ⟨m, hm, hp'.trans hp⟩
  bound u m hu hp := by
    obtain ⟨l, hl, hside, hp', -⟩ := hfg.exists_label_of hu
    rw [hside]
    exact hs.bound u l hl (hp'.symm.trans hp)
  hung u m a hu hp := by
    obtain ⟨l, hl, hside, hp', -⟩ := hfg.exists_label_of hu
    obtain ⟨v, k, ha, hk, hside', hc⟩ := hs.hung u l a hl (hp'.symm.trans hp)
    obtain ⟨k', hk', hside'', -⟩ := hfg.exists_label hk
    exact ⟨v, k', ha, hk', by rw [hside'', hside', hside], by rw [hside]; exact hc⟩

/-- **Exact measurements keep a forest ordered.** -/
theorem Remeasures.ordered (hfg : f.Remeasures g) (ho : f.Ordered t) (he : g.Exact t) :
    g.Ordered t where
  nearer u l a v m hu hp ha hv := by
    by_cases hs : l.stamp = g.clock
    · rcases he u l hu hs with ⟨hroot, -⟩ | ⟨b, y, k, hp', hb, hk, hs', hd⟩
      · rw [hp] at hroot
        cases hroot
      · rw [hp] at hp'
        cases hp'
        obtain ⟨-, rfl⟩ := hb.unique ha
        rw [hv] at hk
        cases hk
        exact Or.inr ⟨by rw [hs, hs'], by omega⟩
    · -- a node not measured now has its old label, and its parent is measured now or has too
      rw [hfg.clock_eq] at hs
      obtain ⟨l', hl', -, -, rfl | ⟨-, hs'⟩⟩ := hfg.exists_label_of hu
      · obtain ⟨m', hm', -, -, rfl | ⟨-, hm''⟩⟩ := hfg.exists_label_of hv
        · exact ho.nearer u l a v m hl' hp ha hm'
        · have hle := ho.stamp_le u l hl'
          exact Or.inl (by omega)
      · exact absurd hs' hs
  depth_pos u l hu := by
    obtain ⟨l', hl', -, -, rfl | ⟨-, hs⟩⟩ := hfg.exists_label_of hu
    · exact ho.depth_pos u l hl'
    · rcases he u l hu (by rw [hs, hfg.clock_eq]) with ⟨-, hd⟩ | ⟨-, -, m, -, -, -, -, hd⟩ <;> omega
  root_depth u l hu hp := by
    obtain ⟨l', hl', -, -, rfl | ⟨-, hs⟩⟩ := hfg.exists_label_of hu
    · exact ho.root_depth u l hl' hp
    · rcases he u l hu (by rw [hs, hfg.clock_eq]) with ⟨-, hd⟩ | ⟨a, -, -, hvia, -⟩
      · exact hd
      · rw [hp] at hvia
        cases hvia
  stamp_le u l hu := by
    rw [hfg.clock_eq]
    obtain ⟨l', hl', -, -, rfl | ⟨-, hs⟩⟩ := hfg.exists_label_of hu
    · exact ho.stamp_le u l hl'
    · omega

/-! ## Measuring a way up -/

/-- The way from `u` up to a root, or up to a node measured at the present time, leads through
the unmeasured nodes `us`, and the depth of `u` is `d`. -/
inductive Way (t : ArcTable) (f : Forest) : Nat → List Nat → Nat → Prop where
  | measured {u : Nat} {l : Label} : f.label u = some l → l.stamp = f.clock →
    Way t f u [] l.depth
  | root {u : Nat} {l : Label} : f.label u = some l → l.stamp ≠ f.clock → l.parent = .root →
    Way t f u [u] 1
  | via {u v d : Nat} {l : Label} {a : ArcRef} {us : List Nat} : f.label u = some l →
    l.stamp ≠ f.clock → l.parent = .via a → t.Leads a u v → Way t f v us d →
    Way t f u (u :: us) (d + 1)

/-- A walk from a measured node ends at once. -/
theorem depth?_of_measured (hu : f.label u = some l) (hs : l.stamp = f.clock) (n : Nat) :
    depth? t f n u = .ok (some l.depth) := by
  unfold depth?
  simp only [fetch_labels_of_label hu, bind, Except.bind, pure, Except.pure, if_pos hs]

/-- **Walking up** from a node of a tree ends, and measures the way unless it ends at an
orphan. -/
theorem depth?_spec {p : Ascent} (hp : Climbs t f u p) :
    ∃ o, EndsWithin p.steps.length (fun n => depth? t f n u) o ∧
      ∀ d, o = some d → ∃ us, Way t f u us d ∧ us.Sublist p.nodes := by
  induction hp with
  | top hu hnot =>
    rename_i u l
    by_cases hs : l.stamp = f.clock
    · refine ⟨some l.depth, fun n _ => depth?_of_measured hu hs n, ?_⟩
      intro d hd
      cases hd
      exact ⟨[], .measured hu hs, List.nil_sublist _⟩
    · cases hp : l.parent with
      | root =>
        refine ⟨some 1, fun n _ => ?_, ?_⟩
        · unfold depth?
          simp only [fetch_labels_of_label hu, bind, Except.bind, pure, Except.pure, if_neg hs, hp]
        · intro d hd
          cases hd
          exact ⟨[u], .root hu hs hp, List.Sublist.refl _⟩
      | orphan =>
        refine ⟨none, fun n _ => ?_, fun d hd => by cases hd⟩
        unfold depth?
        simp only [fetch_labels_of_label hu, bind, Except.bind, pure, Except.pure, if_neg hs, hp]
      | via a => exact absurd hp (hnot a)
  | step hu hp ha hup ih =>
    rename_i u v l a p
    by_cases hs : l.stamp = f.clock
    · refine ⟨some l.depth, fun n _ => depth?_of_measured hu hs n, ?_⟩
      intro d hd
      cases hd
      exact ⟨[], .measured hu hs, List.nil_sublist _⟩
    · obtain ⟨o, hok, hway⟩ := ih
      refine ⟨o.map (· + 1), hok.step fun n hrest => ?_, ?_⟩
      · unfold depth?
        simp only [fetch_labels_of_label hu, bind, Except.bind, pure, Except.pure, if_neg hs, hp,
          ha.head_eq, hrest]
      · intro d hd
        obtain ⟨e, rfl, rfl⟩ := Option.map_eq_some_iff.1 hd
        obtain ⟨us, hus, hsub⟩ := hway e rfl
        exact ⟨u :: us, .via hu hs hp ha hus, hsub.cons_cons u⟩

/-- What was written to the nodes `us` of a way in the forest `f`: the forest `g` before has
become `h`. -/
structure Marked (t : ArcTable) (f : Forest) (us : List Nat) (g h : Forest) : Prop where
  size_eq : h.labels.size = g.labels.size
  clock_eq : h.clock = g.clock
  active_eq : h.active = g.active
  orphans_eq : h.orphans = g.orphans
  label_eq : ∀ w, w ∉ us → h.label w = g.label w
  measured : ∀ w ∈ us, ∃ l d, f.label w = some l ∧ l.stamp ≠ f.clock ∧
    h.label w = some (l.measured f.clock d) ∧ (l.parent = .root ∧ d = 1 ∨
      ∃ a v m, l.parent = .via a ∧ t.Leads a w v ∧ h.label v = some m ∧ m.stamp = f.clock ∧
        d = m.depth + 1)

/-- Writing the depths down, from the lower end of a way on, when the nodes below are written
to already. -/
theorem markUp_marked (hway : Way t f u us d) (hnodup : us.Nodup)
    (hsize : g.labels.size = f.labels.size) (hclock : g.clock = f.clock)
    (hus : ∀ w ∈ us, g.label w = f.label w)
    (hmeasured : ∀ w l, f.label w = some l → l.stamp = f.clock → g.label w = some l) :
    ∃ h, markUp t g d u = .ok h ∧ Marked t f us g h ∧
      ∃ l, h.label u = some l ∧ l.stamp = f.clock ∧ l.depth = d := by
  induction hway generalizing g with
  | measured hu hs =>
    -- the way ends here, and nothing is written
    have hu' := hmeasured _ _ hu hs
    refine ⟨g, ?_, ⟨rfl, rfl, rfl, rfl, fun _ _ => rfl, fun w hw => by simp at hw⟩, _, hu', hs, rfl⟩
    unfold markUp
    simp only [fetch_labels_of_label hu', bind, Except.bind, pure, Except.pure, hclock]
    rw [if_pos hs]
  | root hu hs hp =>
    rename_i u l
    have hu' : g.label u = some l := by rw [hus u (List.mem_singleton_self u), hu]
    have hlt := lt_of_label hu'
    refine ⟨g.setLabel u (some (l.measured g.clock 1)), ?_, ⟨size_setLabel g u _, rfl, rfl, rfl, ?_,
      ?_⟩, l.measured g.clock 1, ?_, hclock, rfl⟩
    · unfold markUp
      simp only [fetch_labels_of_label hu', bind, Except.bind, pure, Except.pure, hp]
      rw [if_neg (by rw [hclock]; exact hs)]
    · intro w hw
      rw [label_setLabel hlt, if_neg (fun hc => hw (by simp [hc]))]
    · intro w hw
      obtain rfl : w = u := by simpa using hw
      exact ⟨l, 1, hu, hs, by rw [label_setLabel hlt, if_pos rfl, hclock], Or.inl ⟨hp, rfl⟩⟩
    · rw [label_setLabel hlt, if_pos rfl]
  | via hu hs hp ha hrest ih =>
    rename_i u v d l a us
    obtain ⟨hnot, hnodup'⟩ := List.nodup_cons.1 hnodup
    have hu' : g.label u = some l := by rw [hus u List.mem_cons_self, hu]
    have hlt := lt_of_label hu'
    have hset : ∀ w, w ≠ u →
        (g.setLabel u (some (l.measured g.clock (d + 1)))).label w = g.label w :=
      fun w hw => by rw [label_setLabel hlt, if_neg (Ne.symm hw)]
    have hsize' : (g.setLabel u (some (l.measured g.clock (d + 1)))).labels.size =
        f.labels.size := by rw [size_setLabel, hsize]
    -- the nodes above are as before, and so are all measured nodes
    have habove : ∀ w ∈ us,
        (g.setLabel u (some (l.measured g.clock (d + 1)))).label w = f.label w := by
      intro w hw
      rw [hset w (fun hc => hnot (hc ▸ hw)), hus w (List.mem_cons_of_mem u hw)]
    have hmeasured' : ∀ w k, f.label w = some k → k.stamp = f.clock →
        (g.setLabel u (some (l.measured g.clock (d + 1)))).label w = some k := by
      intro w k hk hk'
      have hwu : w ≠ u := by
        rintro rfl
        rw [hu] at hk
        cases hk
        exact hs hk'
      rw [hset w hwu, hmeasured w k hk hk']
    obtain ⟨h, hok, hmarked, m, hm, hms, hmd⟩ := ih hnodup' hsize' hclock habove hmeasured'
    have hself : h.label u = some (l.measured f.clock (d + 1)) := by
      rw [hmarked.label_eq u hnot, label_setLabel hlt, if_pos rfl, hclock]
    refine ⟨h, ?_, ⟨hmarked.size_eq.trans (size_setLabel g u _), hmarked.clock_eq,
      hmarked.active_eq, hmarked.orphans_eq, ?_, ?_⟩, _, hself, rfl, rfl⟩
    · unfold markUp
      simp only [fetch_labels_of_label hu', bind, Except.bind, pure, Except.pure, hp, ha.head_eq,
        hok]
      rw [if_neg (by rw [hclock]; exact hs)]
    · intro w hw
      rw [List.mem_cons, not_or] at hw
      rw [hmarked.label_eq w hw.2, hset w hw.1]
    · intro w hw
      rcases List.mem_cons.1 hw with rfl | hw
      · exact ⟨l, d + 1, hu, hs, hself, Or.inr ⟨a, v, m, hp, ha, hm, hms, by rw [hmd]⟩⟩
      · exact hmarked.measured w hw

/-- **Writing the depths of a way down** keeps all measured nodes exact. -/
theorem markUp_spec (he : f.Exact t) (hway : Way t f u us d) (hnodup : us.Nodup) :
    ∃ g, markUp t f d u = .ok g ∧ f.Remeasures g ∧ g.Exact t ∧
      ∃ l, g.label u = some l ∧ l.stamp = f.clock ∧ l.depth = d := by
  obtain ⟨g, hok, hm, hu⟩ := markUp_marked hway hnodup rfl rfl (fun _ _ => rfl) fun _ _ hl _ => hl
  refine ⟨g, hok, ⟨hm.size_eq, hm.clock_eq, hm.active_eq, hm.orphans_eq, ?_⟩, ?_, hu⟩
  · intro w
    by_cases hw : w ∈ us
    · obtain ⟨l, e, hl, hs, hg, -⟩ := hm.measured w hw
      exact Or.inr ⟨l, e, hl, hs, hg⟩
    · exact Or.inl (hm.label_eq w hw)
  · intro w l hl hs
    rw [hm.clock_eq] at hs ⊢
    by_cases hw : w ∈ us
    · obtain ⟨k, e, -, -, hg, hexact⟩ := hm.measured w hw
      rw [hl] at hg
      cases hg
      exact hexact
    · rw [hm.label_eq w hw] at hl
      rcases he w l hl hs with hroot | ⟨a, v, m, hp, ha, hv, hs', hd⟩
      · exact Or.inl hroot
      · have hv' : v ∉ us := by
          intro hmem
          obtain ⟨k, -, hk, hs'', -⟩ := hm.measured v hmem
          rw [hv] at hk
          cases hk
          exact hs'' hs'
        exact Or.inr ⟨a, v, m, hp, ha, by rw [hm.label_eq v hv', hv], hs', hd⟩

/-- **Measuring the way up from a node**: the walk ends, and if it ends at a root the depths are
written down. -/
theorem measure_spec (hs : f.Sound R) (ho : f.Ordered R.arcs) (he : f.Exact R.arcs)
    (hu : f.label u = some l) :
    ∃ o, EndsWithin f.labels.size (fun n => depth? R.arcs f n u) o ∧ ∀ d, o = some d →
      ∃ g, markUp R.arcs f d u = .ok g ∧ f.Remeasures g ∧ g.Exact R.arcs ∧
        ∃ k, g.label u = some k ∧ k.stamp = f.clock ∧ k.depth = d := by
  obtain ⟨p, hp⟩ := exists_climbs hs ho hu
  obtain ⟨o, hok, hway⟩ := depth?_spec hp
  refine ⟨o, hok.mono (Nat.le_of_lt (hp.length_lt ho)), fun d hd => ?_⟩
  obtain ⟨us, hus, hsub⟩ := hway d hd
  exact markUp_spec he hus (hsub.nodup (hp.nodup ho))

end Forest

end MinCut
