/-
# Solves do not see the numbers of the edges

What holds of growing a tree and of settling orphans holds of an augmentation, of a passage through
the loop and of a whole solve: two searches in the same state up to the numbers of the edges stay
so, and augment the same paths by the same amounts.

Key facts:
* `Search.Renames.augment` : an augmentation;
* `Run.Renames.turn` : one passage through the loop;
* `Run.Renames.finish` : the whole loop, by induction on its turns;
* `Search.Renames.solve` : a solve.
-/
import MinCut.Proofs.Renaming

namespace MinCut

variable {ρ : Nat → Nat} {t t' : ArcTable}

/-! ## Paths -/

namespace Forest

theorem ascend_renames (h : t.Renames ρ t') (f : Forest) (fuel u : Nat) :
    Paired (fun p q => q = p.rename ρ) (f.ascend t fuel u) ((f.rename ρ).ascend t' fuel u) := by
  induction fuel generalizing u with
  | zero =>
    unfold ascend
    refine (f.fetch_rename u).bind ?_
    rintro l _ rfl
    cases l with
    | none => exact .error_left _
    | some l =>
      simp only [Option.map_some, Label.parent_rename]
      cases l.parent with
      | orphan => exact .error_left _
      | root => exact .ok rfl
      | via a => exact .error_left _
  | succ fuel ih =>
    unfold ascend
    refine (f.fetch_rename u).bind ?_
    rintro l _ rfl
    cases l with
    | none => exact .error_left _
    | some l =>
      simp only [Option.map_some, Label.parent_rename]
      cases l.parent with
      | orphan => exact .error_left _
      | root => exact .ok rfl
      | via a =>
        refine (h.head a).bind ?_
        rintro v _ rfl
        refine (ih v).bind ?_
        rintro p _ rfl
        exact .ok rfl

theorem path_renames (h : t.Renames ρ t') (f : Forest) (m : Meeting) :
    Paired (fun p q => q = p.rename ρ) (f.path t m) ((f.rename ρ).path t' (m.rename ρ)) := by
  unfold path
  rw [size_labels_rename]
  refine (ascend_renames h f _ m.sourceEnd).bind ?_
  rintro p _ rfl
  refine (ascend_renames h f _ m.sinkEnd).bind ?_
  rintro q _ rfl
  exact .ok rfl

theorem orphan_renames (f : Forest) (u : Nat) :
    Paired (fun g g' => g' = g.rename ρ) (f.orphan u) ((f.rename ρ).orphan u) := by
  unfold orphan
  refine (f.fetch_rename u).bind ?_
  rintro l _ rfl
  cases l with
  | none => exact .error_left _
  | some l =>
    have hset := setLabel_some_rename (ρ := ρ) f u l.orphaned
    refine .ok ?_
    show ({ (f.rename ρ).setLabel u (some (l.orphaned.rename ρ)) with
      orphans := f.orphans.pushSaturated u } : Forest) = _
    rw [hset]
    rfl

end Forest

theorem ArcTable.Renames.smallest (h : t.Renames ρ t') (x : Int) (as : List ArcRef) :
    Paired Eq (t.smallest x as) (t'.smallest x (as.map (ArcRef.rename ρ))) := by
  refine Paired.foldlM ?_ as rfl
  rintro x _ a rfl
  refine (h.residual a).bind ?_
  rintro c _ rfl
  exact .ok rfl

/-- The same path has the same room. -/
theorem Residual.bottleneck_renames {R R' : Residual} (h : R.arcs.Renames ρ R'.arcs)
    (hexcess : R'.excess = R.excess) (r : Register) (p : Path) :
    Paired Eq (R.bottleneck r p) (R'.bottleneck r (p.rename ρ)) := by
  unfold bottleneck
  rw [hexcess]
  refine (h.residual p.middle).bind ?_
  rintro x _ rfl
  have hsource := h.smallest x (p.source.carriers .source)
  rw [← Ascent.carriers_rename] at hsource
  refine hsource.bind ?_
  rintro y _ rfl
  refine (Paired.refl _).bind ?_
  rintro supply _ rfl
  have hsink := h.smallest (min y supply) (p.sink.carriers .sink)
  rw [← Ascent.carriers_rename] at hsink
  refine hsink.bind ?_
  rintro z _ rfl
  refine (Paired.refl _).bind ?_
  rintro excess _ rfl
  refine (Paired.refl _).bind ?_
  rintro demand _ rfl
  exact .ok rfl

/-! ## Pushing -/

namespace Search.Renames

variable {s s' : Search}

/-- The same change of the forest. -/
theorem withForest (h : s.Renames ρ s') (f : Forest) :
    Search.Renames ρ { s with forest := f } { s' with forest := f.rename ρ } :=
  { h with forest_eq := rfl }

theorem pushArc (h : s.Renames ρ s') (r : Register) (x : Int) (a : ArcRef) :
    Paired (Search.Renames ρ) (s.pushArc r x a) (s'.pushArc r x (a.rename ρ)) := by
  unfold Search.pushArc
  refine (h.arcs.pushFlow r a x).bind ?_
  intro t t' ht
  exact .ok { h with arcs := ht }

/-- A node loses its parent in both forests. -/
theorem orphan (h : s.Renames ρ s') (u : Nat) :
    Paired (Search.Renames ρ) (do return { s with forest := ← s.forest.orphan u })
      (do return { s' with forest := ← s'.forest.orphan u }) := by
  rw [h.forest_eq]
  refine (Forest.orphan_renames s.forest u).bind ?_
  rintro f _ rfl
  exact .ok (h.withForest f)

theorem pushStep (h : s.Renames ρ s') (r : Register) (side : Segment) (x : Int)
    (step : Nat × ArcRef) :
    Paired (Search.Renames ρ) (s.pushStep r side x step)
      (s'.pushStep r side x (step.1, step.2.rename ρ)) := by
  unfold Search.pushStep
  rw [treeArc_rename]
  refine (h.pushArc r x _).bind ?_
  intro s₁ s₁' h₁
  refine (h₁.arcs.treeResidual side step.2).bind ?_
  rintro rest _ rfl
  exact .ite Iff.rfl (fun _ => h₁.orphan step.1) fun _ => .ok h₁

theorem pushRoot (h : s.Renames ρ s') (r : Register) (side : Segment) (x : Int) (u : Nat) :
    Paired (Search.Renames ρ) (s.pushRoot r side x u) (s'.pushRoot r side x u) := by
  unfold Search.pushRoot
  rw [h.excess_eq]
  refine (Paired.refl _).bind ?_
  rintro excess _ rfl
  refine (Paired.refl _).bind ?_
  rintro rest _ rfl
  refine .ite Iff.rfl (fun _ => .error_left _) fun _ => ?_
  have h₁ : Search.Renames ρ
      { s with residual.excess := s.residual.excess.setIfInBounds u rest }
      { s' with residual.excess := s.residual.excess.setIfInBounds u rest } :=
    { h with excess_eq := rfl }
  exact .ite Iff.rfl (fun _ => h₁.orphan u) fun _ => .ok h₁

theorem pushAscent (h : s.Renames ρ s') (r : Register) (side : Segment) (x : Int) (p : Ascent) :
    Paired (Search.Renames ρ) (s.pushAscent r side x p)
      (s'.pushAscent r side x (p.rename ρ)) := by
  unfold Search.pushAscent
  refine (Paired.foldlM (fun s s' step h => pushStep h r side x step) p.steps h).bind ?_
  intro s₁ s₁' h₁
  exact h₁.pushRoot r side x p.root

theorem pushPath (h : s.Renames ρ s') (r : Register) (x : Int) (p : Path) :
    Paired (Search.Renames ρ) (s.pushPath r x p) (s'.pushPath r x (p.rename ρ)) := by
  unfold Search.pushPath
  refine (h.pushArc r x p.middle).bind ?_
  intro s₁ s₁' h₁
  refine (h₁.pushAscent r .source x p.source).bind ?_
  intro s₂ s₂' h₂
  refine (h₂.pushAscent r .sink x p.sink).bind ?_
  intro s₃ s₃' h₃
  rw [h₃.flow_eq]
  refine (Paired.refl _).bind ?_
  rintro flow _ rfl
  exact .ok { h₃ with
    flow_eq := rfl
    augmentations_eq := congrArg (· + 1) h₃.augmentations_eq }

/-- **An augmentation** pushes the same amount along the same path. -/
theorem augment (h : s.Renames ρ s') (r : Register) (m : Meeting) :
    Paired (fun p q => p.1.Renames ρ q.1 ∧ q.2 = p.2) (s.augment r m)
      (s'.augment r (m.rename ρ)) := by
  unfold Search.augment
  rw [h.forest_eq]
  refine (Forest.path_renames h.arcs s.forest m).bind ?_
  rintro p _ rfl
  refine (Residual.bottleneck_renames h.arcs h.excess_eq r p).bind ?_
  rintro x _ rfl
  refine .ite Iff.rfl (fun _ => ?_) fun _ => .error_left _
  refine (h.pushPath r x p).bind ?_
  intro s₁ s₁' h₁
  exact .ok ⟨h₁, rfl⟩

/-- The repair after it settles the same orphans. -/
theorem repair (h : s.Renames ρ s') : Paired (Search.Renames ρ) s.repair s'.repair := by
  unfold Search.repair
  rw [h.forest_eq]
  refine (Forest.adopt_renames h.arcs s.forest).bind ?_
  rintro ⟨f, count⟩ _ rfl
  exact .ok { h.withForest f with adoptions_eq := congrArg (· + count) h.adoptions_eq }

theorem meet (h : s.Renames ρ s') (r : Register) (i : Nat) (m : Meeting) :
    Paired (fun p q => p.1.Renames ρ q.1 ∧ q.2 = p.2) (s.meet r i m)
      (s'.meet r i (m.rename ρ)) := by
  unfold Search.meet
  rw [h.forest_eq]
  refine (Forest.mark_renames s.forest i true).bind ?_
  rintro f _ rfl
  refine ((h.withForest f).augment r m).bind ?_
  rintro ⟨s₁, a⟩ ⟨s₁', _⟩ ⟨h₁, rfl⟩
  refine h₁.repair.bind ?_
  intro s₂ s₂' h₂
  exact .ok ⟨⟨h₂, rfl⟩, rfl⟩

end Search.Renames

/-! ## Passing through the loop -/

/-- The two turns lead to the same state up to the numbers of the edges. -/
inductive Turn.Renames (ρ : Nat → Nat) : Turn → Turn → Prop where
  | finished {s s' : Search} : s.Renames ρ s' → Renames ρ (.finished s) (.finished s')
  | next {x x' : Run} (a : Option Augmentation) :
    x.Renames ρ x' → Renames ρ (.next x a) (.next x' a)

namespace Run.Renames

variable {x x' : Run}

/-- **One passage through the loop.** -/
theorem turn (h : x.Renames ρ x') (r : Register) :
    Paired (Turn.Renames ρ) (x.turn r) (x'.turn r) := by
  have hs := h.search
  unfold Run.turn
  simp only [h.held_eq, hs.forest_eq]
  refine (Forest.choose_renames x.search.forest x.held).bind ?_
  rintro ⟨chosen, f⟩ _ rfl
  cases chosen with
  | none => exact .ok (.finished (hs.withForest f))
  | some i =>
    have hgrow : Paired (fun p q => q = (p.1.rename ρ, p.2.map (Meeting.rename ρ)))
        (Forest.grow x.search.residual.arcs x.search.reparent f i)
        (Forest.grow x'.search.residual.arcs x'.search.reparent (f.rename ρ) i) := by
      rw [hs.reparent_eq]
      exact Forest.grow_renames hs.arcs x.search.reparent f i
    refine hgrow.bind ?_
    rintro ⟨g, m⟩ _ rfl
    cases m with
    | none => exact .ok (.next none ⟨hs.withForest g, rfl⟩)
    | some m =>
      refine ((hs.withForest g).meet r i m).bind ?_
      rintro ⟨y, _⟩ ⟨y', a⟩ ⟨hy, rfl⟩
      exact .ok (.next (some a) hy)

/-- **The whole loop** augments the same paths. -/
theorem finish (h : x.Renames ρ x') (r : Register) (fuel : Nat) :
    Paired (fun p q => p.1.Renames ρ q.1 ∧ q.2 = p.2) (x.finish r fuel) (x'.finish r fuel) := by
  induction fuel generalizing x x' with
  | zero =>
    unfold Run.finish
    refine (h.turn r).bind ?_
    rintro _ _ (hs | ⟨a, hy⟩)
    · exact .ok ⟨hs, rfl⟩
    · exact .error_left _
  | succ fuel ih =>
    unfold Run.finish
    refine (h.turn r).bind ?_
    rintro _ _ (hs | ⟨a, hy⟩)
    · exact .ok ⟨hs, rfl⟩
    · refine (ih hy).bind ?_
      rintro ⟨s, as⟩ ⟨s', _⟩ ⟨hs, rfl⟩
      exact .ok ⟨hs, rfl⟩

end Run.Renames

/-! ## Solving -/

namespace Search.Renames

variable {s s' : Search}

/-- A planted forest has no arcs to parents. -/
theorem rename_ofExcess {excess : Array Int} {f : Forest} (h : Forest.ofExcess excess = .ok f) :
    f.rename ρ = f := by
  obtain ⟨active, -, hf⟩ := bind_eq_ok_iff.1 h
  obtain rfl := Except.ok.inj hf
  have hroot : Option.map (Label.rename ρ) ∘ Forest.rootLabel = Forest.rootLabel := by
    funext x
    simp only [Function.comp_apply, Forest.rootLabel]
    split
    · rfl
    · split <;> rfl
  simp only [Forest.rename, Array.map_map, hroot]

theorem restart (h : s.Renames ρ s') : Paired (Search.Renames ρ) s.restart s'.restart := by
  unfold Search.restart
  rw [h.excess_eq]
  intro s₁ s₁' hs₁ hs₁'
  obtain ⟨f, hf, hs₁⟩ := bind_eq_ok_iff.1 hs₁
  obtain ⟨f', hf', hs₁'⟩ := bind_eq_ok_iff.1 hs₁'
  obtain rfl : f = f' := Except.ok.inj (hf.symm.trans hf')
  obtain rfl := Except.ok.inj hs₁
  obtain rfl := Except.ok.inj hs₁'
  have hforest := h.withForest f
  rw [rename_ofExcess hf] at hforest
  exact hforest

/-- **A solve does not see the numbers of the edges.** -/
theorem solve (h : s.Renames ρ s') (r : Register) :
    Paired (fun p q => p.1.Renames ρ q.1 ∧ q.2 = p.2) (s.solve r) (s'.solve r) := by
  unfold Search.solve
  refine h.restart.bind ?_
  intro s₁ s₁' h₁
  have hpatience : s₁'.patience = s₁.patience := by
    unfold patience supply
    rw [h₁.excess_eq]
  have hrun : Run.Renames ρ ⟨s₁, none⟩ ⟨s₁', none⟩ := ⟨h₁, rfl⟩
  rw [hpatience]
  refine (hrun.finish r _).bind ?_
  rintro ⟨s₂, as⟩ ⟨s₂', _⟩ ⟨h₂, rfl⟩
  -- the audit of either forest at the end only refuses
  refine Paired.bind (R := fun _ _ => True) (fun _ _ _ _ => trivial) ?_
  rintro ⟨⟩ ⟨⟩ -
  exact .ok ⟨h₂, rfl⟩

end Search.Renames

end MinCut
