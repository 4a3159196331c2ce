/-
# A search does not see the numbers of the edges

No step of a search compares two references or asks for the number of an edge; it follows them to
heads and residual capacities.  So the same forest over two tables that are alike up to these
numbers stays the same, step by step.

Key facts:
* `ArcTable.Renames.pushFlow` : a push keeps the tables alike;
* `Forest.grow_renames` : growing a tree;
* `Forest.adopt_renames` : settling the orphans, by induction on them.
-/
import MinCut.Search.Renaming

namespace MinCut

variable {ρ : Nat → Nat}

/-! ## Small facts -/

@[simp] theorem ArcRef.sister_rename (a : ArcRef) : (a.rename ρ).sister = a.sister.rename ρ := rfl

@[simp] theorem treeArc_rename (side : Segment) (a : ArcRef) :
    treeArc side (a.rename ρ) = (treeArc side a).rename ρ := by
  cases side <;> rfl

@[simp] theorem Label.side_rename (l : Label) : (l.rename ρ).side = l.side := rfl

@[simp] theorem Label.parent_rename (l : Label) : (l.rename ρ).parent = l.parent.rename ρ := rfl

@[simp] theorem Label.isAttached_rename (l : Label) : (l.rename ρ).isAttached = l.isAttached := by
  unfold isAttached
  rw [parent_rename]
  cases l.parent <;> rfl

@[simp] theorem Meeting.found_rename (side : Segment) (i j : Nat) (a : ArcRef) :
    Meeting.found side i j (a.rename ρ) = (Meeting.found side i j a).rename ρ := by
  cases side <;> rfl

theorem Ascent.carriers_rename (p : Ascent) (side : Segment) :
    (p.rename ρ).carriers side = (p.carriers side).map (ArcRef.rename ρ) := by
  simp [carriers, rename]

namespace Forest

@[simp] theorem size_labels_rename (f : Forest) : (f.rename ρ).labels.size = f.labels.size := by
  simp [rename]

@[simp] theorem active_rename (f : Forest) : (f.rename ρ).active = f.active := rfl

@[simp] theorem orphans_rename (f : Forest) : (f.rename ρ).orphans = f.orphans := rfl

@[simp] theorem clock_rename (f : Forest) : (f.rename ρ).clock = f.clock := rfl

theorem setLabel_rename (f : Forest) (u : Nat) (l : Option Label) :
    (f.rename ρ).setLabel u (l.map (Label.rename ρ)) = (f.setLabel u l).rename ρ := by
  simp [rename, setLabel, Array.map_setIfInBounds]

theorem setLabel_some_rename (f : Forest) (u : Nat) (l : Label) :
    (f.rename ρ).setLabel u (some (l.rename ρ)) = (f.setLabel u (some l)).rename ρ :=
  setLabel_rename f u (some l)

theorem nearer_rename (best : Option Candidate) (c : Candidate) :
    nearer (best.map (Candidate.rename ρ)) (c.rename ρ) =
      (nearer best c).map (Candidate.rename ρ) := by
  cases best with
  | none => rfl
  | some b =>
    show (if c.depth < b.depth then _ else _) = Option.map _ (if c.depth < b.depth then _ else _)
    split <;> rfl

/-- The label of a node is the renamed one. -/
theorem fetch_rename (f : Forest) (u : Nat) :
    Paired (fun l l' => l' = l.map (Label.rename ρ)) (fetch f.labels u)
      (fetch (f.rename ρ).labels u) := by
  intro l l' hl hl'
  rw [fetch_eq_ok_iff] at hl hl'
  simp only [rename, Array.getElem?_map, hl, Option.map_some, Option.some.injEq] at hl'
  exact hl'.symm

end Forest

/-! ## Tables -/

namespace ArcTable.Renames

variable {t t' : ArcTable}

theorem fetch (h : t.Renames ρ t') (a : ArcRef) :
    Paired Eq (MinCut.fetch t.pairs a.pair) (MinCut.fetch t'.pairs (a.rename ρ).pair) := by
  intro p p' hp hp'
  rw [fetch_eq_ok_iff] at hp hp'
  have hsame : t'.pairs[ρ a.pair]? = some p := (h.getElem?_pairs a.pair).trans hp
  exact Option.some.inj (hsame.symm.trans hp')

theorem head (h : t.Renames ρ t') (a : ArcRef) : Paired Eq (t.head a) (t'.head (a.rename ρ)) := by
  unfold ArcTable.head
  refine (h.fetch a).bind ?_
  rintro p _ rfl
  exact .ok rfl

theorem residual (h : t.Renames ρ t') (a : ArcRef) :
    Paired Eq (t.residual a) (t'.residual (a.rename ρ)) := by
  unfold ArcTable.residual
  refine (h.fetch a).bind ?_
  rintro p _ rfl
  exact .ok rfl

theorem treeResidual (h : t.Renames ρ t') (side : Segment) (a : ArcRef) :
    Paired Eq (t.treeResidual side a) (t'.treeResidual side (a.rename ρ)) := by
  unfold ArcTable.treeResidual
  rw [treeArc_rename]
  exact h.residual _

/-- **A push** changes the same pair in both tables. -/
theorem pushFlow (h : t.Renames ρ t') (r : Register) (a : ArcRef) (x : Int) :
    Paired (ArcTable.Renames ρ) (t.pushFlow r a x) (t'.pushFlow r (a.rename ρ) x) := by
  unfold ArcTable.pushFlow
  refine (h.fetch a).bind ?_
  rintro p _ rfl
  refine (Paired.refl _).bind ?_
  rintro q _ rfl
  refine .ite Iff.rfl (fun _ => .error_left _) fun _ => ?_
  · refine .ok ⟨h.injective, h.around, ?_⟩
    intro k
    have hlt : ρ a.pair < t'.pairs.size ↔ a.pair < t.pairs.size := by
      have hsome := congrArg Option.isSome (h.getElem?_pairs a.pair)
      rw [Bool.eq_iff_iff] at hsome
      simpa using hsome
    simp only [ArcRef.rename, Array.getElem?_setIfInBounds, h.injective.eq_iff, hlt,
      h.getElem?_pairs]

end ArcTable.Renames

/-! ## Growing -/

namespace Forest

variable {t t' : ArcTable} {f : Forest}

theorem activate_renames (f : Forest) (u : Nat) :
    Paired (fun g g' => g' = g.rename ρ) (f.activate u) ((f.rename ρ).activate u) := by
  unfold activate
  refine (Paired.refl _).bind ?_
  rintro q _ rfl
  exact .ok rfl

theorem isAttached_renames (f : Forest) (u : Nat) :
    Paired Eq (f.isAttached u) ((f.rename ρ).isAttached u) := by
  unfold isAttached
  refine (f.fetch_rename u).bind ?_
  rintro l _ rfl
  cases l with
  | none => exact .ok rfl
  | some l => exact .ok l.isAttached_rename.symm

theorem growTo_renames (reparent : Bool) (i : Nat) (l : Label) (a : ArcRef) (j : Nat) :
    Paired (fun p q => q = (p.1.rename ρ, p.2.map (Meeting.rename ρ)))
      (f.growTo reparent i l a j)
      ((f.rename ρ).growTo reparent i (l.rename ρ) (a.rename ρ) j) := by
  have hset : (f.rename ρ).setLabel j (some ((l.rename ρ).child (a.rename ρ).sister)) =
      (f.setLabel j (some (l.child a.sister))).rename ρ :=
    setLabel_some_rename f j (l.child a.sister)
  unfold growTo
  rw [hset]
  refine (f.fetch_rename j).bind ?_
  rintro m _ rfl
  cases m with
  | none =>
    refine (activate_renames _ j).bind ?_
    rintro g _ rfl
    exact .ok rfl
  | some m =>
    rw [Meeting.found_rename]
    refine .ite Iff.rfl (fun _ => .ok rfl) fun _ => ?_
    exact .ite Iff.rfl (fun _ => .ok rfl) fun _ => .ok rfl

theorem growAlong_renames (h : t.Renames ρ t') (reparent : Bool) (i : Nat) (l : Label)
    (f : Forest) (a : ArcRef) :
    Paired (fun p q => q = (p.1.rename ρ, p.2.map (Meeting.rename ρ)))
      (growAlong t reparent i l f a)
      (growAlong t' reparent i (l.rename ρ) (f.rename ρ) (a.rename ρ)) := by
  unfold growAlong
  rw [ArcRef.sister_rename, Label.side_rename]
  refine (h.treeResidual _ _).bind ?_
  rintro c _ rfl
  refine .ite Iff.rfl (fun _ => .ok rfl) fun _ => ?_
  refine (h.head a).bind ?_
  rintro j _ rfl
  exact growTo_renames reparent i l a j

theorem growAll_renames (h : t.Renames ρ t') (reparent : Bool) (i : Nat) (l : Label) (f : Forest)
    (as : List ArcRef) :
    Paired (fun p q => q = (p.1.rename ρ, p.2.map (Meeting.rename ρ)))
      (growAll t reparent i l f as)
      (growAll t' reparent i (l.rename ρ) (f.rename ρ) (as.map (ArcRef.rename ρ))) := by
  induction as generalizing f with
  | nil => exact .ok rfl
  | cons a as ih =>
    refine (growAlong_renames h reparent i l f a).bind ?_
    rintro ⟨g, m⟩ _ rfl
    cases m with
    | some m => exact .ok rfl
    | none => exact ih g

/-- **Growing a tree** claims the same nodes and finds the same meeting. -/
theorem grow_renames (h : t.Renames ρ t') (reparent : Bool) (f : Forest) (i : Nat) :
    Paired (fun p q => q = (p.1.rename ρ, p.2.map (Meeting.rename ρ))) (grow t reparent f i)
      (grow t' reparent (f.rename ρ) i) := by
  unfold grow
  refine (f.fetch_rename i).bind ?_
  rintro l _ rfl
  cases l with
  | none => exact .error_left _
  | some l =>
    refine (h.around i).bind ?_
    rintro as _ rfl
    refine (growAll_renames h reparent i l f as).bind ?_
    rintro ⟨g, m⟩ _ rfl
    exact .ok rfl

/-! ## Choosing the node to grow -/

theorem mark_renames (f : Forest) (u : Nat) (linked : Bool) :
    Paired (fun g g' => g' = g.rename ρ) (f.mark u linked) ((f.rename ρ).mark u linked) := by
  unfold mark
  refine (Paired.refl _).bind ?_
  rintro q _ rfl
  exact .ok rfl

theorem nextActive_renames (f : Forest) (fuel : Nat) :
    Paired (fun p q => q = (p.1, p.2.rename ρ)) (f.nextActive fuel)
      ((f.rename ρ).nextActive fuel) := by
  induction fuel generalizing f with
  | zero =>
    unfold nextActive
    rw [active_rename]
    cases f.active.pop? with
    | none => exact .ok rfl
    | some p =>
      refine (isAttached_renames { f with active := p.2 } p.1).bind ?_
      rintro b _ rfl
      cases b with
      | true => exact .ok rfl
      | false => exact .error_left _
  | succ fuel ih =>
    unfold nextActive
    rw [active_rename]
    cases f.active.pop? with
    | none => exact .ok rfl
    | some p =>
      refine (isAttached_renames { f with active := p.2 } p.1).bind ?_
      rintro b _ rfl
      cases b with
      | true => exact .ok rfl
      | false => exact ih _

theorem choose_renames (f : Forest) (held : Option Nat) :
    Paired (fun p q => q = (p.1, p.2.rename ρ)) (f.choose held) ((f.rename ρ).choose held) := by
  cases held with
  | none => exact nextActive_renames f _
  | some i =>
    refine (mark_renames f i false).bind ?_
    rintro g _ rfl
    refine (isAttached_renames g i).bind ?_
    rintro b _ rfl
    cases b with
    | true => exact .ok rfl
    | false => exact nextActive_renames g _

/-! ## Settling orphans -/

theorem depth?_renames (h : t.Renames ρ t') (f : Forest) (fuel u : Nat) :
    Paired Eq (depth? t f fuel u) (depth? t' (f.rename ρ) fuel u) := by
  induction fuel generalizing u with
  | zero =>
    unfold depth?
    refine (f.fetch_rename u).bind ?_
    rintro l _ rfl
    cases l with
    | none => exact .error_left _
    | some l =>
      simp only [Option.map_some, Label.parent_rename]
      refine .ite Iff.rfl (fun _ => .ok rfl) fun _ => ?_
      cases l.parent with
      | root => exact .ok rfl
      | orphan => exact .ok rfl
      | via a => exact .error_left _
  | succ fuel ih =>
    unfold depth?
    refine (f.fetch_rename u).bind ?_
    rintro l _ rfl
    cases l with
    | none => exact .error_left _
    | some l =>
      simp only [Option.map_some, Label.parent_rename]
      refine .ite Iff.rfl (fun _ => .ok rfl) fun _ => ?_
      cases l.parent with
      | root => exact .ok rfl
      | orphan => exact .ok rfl
      | via a =>
        refine (h.head a).bind ?_
        rintro v _ rfl
        refine (ih v).bind ?_
        rintro d _ rfl
        exact .ok rfl

theorem markUp_renames (h : t.Renames ρ t') (f : Forest) (d u : Nat) :
    Paired (fun g g' => g' = g.rename ρ) (markUp t f d u) (markUp t' (f.rename ρ) d u) := by
  induction d generalizing f u with
  | zero =>
    unfold markUp
    refine (f.fetch_rename u).bind ?_
    rintro l _ rfl
    cases l with
    | none => exact .error_left _
    | some l => exact .ite Iff.rfl (fun _ => .ok rfl) fun _ => .error_left _
  | succ d ih =>
    unfold markUp
    refine (f.fetch_rename u).bind ?_
    rintro l _ rfl
    cases l with
    | none => exact .error_left _
    | some l =>
      have hset : (f.rename ρ).setLabel u (some ((l.rename ρ).measured f.clock (d + 1))) =
          (f.setLabel u (some (l.measured f.clock (d + 1)))).rename ρ :=
        setLabel_some_rename f u (l.measured f.clock (d + 1))
      simp only [Option.map_some, Label.parent_rename, clock_rename, hset]
      refine .ite Iff.rfl (fun _ => .ok rfl) fun _ => ?_
      cases l.parent with
      | root => exact .ok rfl
      | orphan => exact .error_left _
      | via a =>
        refine (h.head a).bind ?_
        rintro v _ rfl
        exact ih _ v

theorem consider_renames (h : t.Renames ρ t') (side : Segment) (f : Forest)
    (best : Option Candidate) (a : ArcRef) :
    Paired (fun p q => q = (p.1.rename ρ, p.2.map (Candidate.rename ρ)))
      (consider t side f best a)
      (consider t' side (f.rename ρ) (best.map (Candidate.rename ρ)) (a.rename ρ)) := by
  unfold consider
  refine (h.treeResidual side a).bind ?_
  rintro c _ rfl
  refine .ite Iff.rfl (fun _ => .ok rfl) fun _ => ?_
  refine (h.head a).bind ?_
  rintro j _ rfl
  refine (f.fetch_rename j).bind ?_
  rintro m _ rfl
  cases m with
  | none => exact .ok rfl
  | some m =>
    rw [size_labels_rename]
    refine .ite Iff.rfl (fun _ => .ok rfl) fun _ => ?_
    refine (depth?_renames h f _ j).bind ?_
    rintro d _ rfl
    cases d with
    | none => exact .ok rfl
    | some d =>
      refine (markUp_renames h f d j).bind ?_
      rintro g _ rfl
      exact .ok (congrArg (Prod.mk _) (nearer_rename best ⟨a, d⟩))

theorem considerAll_renames (h : t.Renames ρ t') (side : Segment) (f : Forest)
    (best : Option Candidate) (as : List ArcRef) :
    Paired (fun p q => q = (p.1.rename ρ, p.2.map (Candidate.rename ρ)))
      (considerAll t side f best as)
      (considerAll t' side (f.rename ρ) (best.map (Candidate.rename ρ))
        (as.map (ArcRef.rename ρ))) := by
  induction as generalizing f best with
  | nil => exact .ok rfl
  | cons a as ih =>
    refine (consider_renames h side f best a).bind ?_
    rintro ⟨g, b⟩ _ rfl
    exact ih g b

theorem orphanBelow_rename (f : Forest) (u : Nat) (l : Label) :
    (f.rename ρ).orphanBelow u (l.rename ρ) = (f.orphanBelow u l).rename ρ := by
  simp only [orphanBelow, rename, Array.map_setIfInBounds]
  rfl

theorem releaseAlong_renames (h : t.Renames ρ t') (side : Segment) (i : Nat) (f : Forest)
    (a : ArcRef) :
    Paired (fun g g' => g' = g.rename ρ) (releaseAlong t side i f a)
      (releaseAlong t' side i (f.rename ρ) (a.rename ρ)) := by
  unfold releaseAlong
  refine (h.head a).bind ?_
  rintro j _ rfl
  refine (f.fetch_rename j).bind ?_
  rintro m _ rfl
  cases m with
  | none => exact .ok rfl
  | some m =>
    refine .ite Iff.rfl (fun _ => .ok rfl) fun _ => ?_
    refine (h.treeResidual side a).bind ?_
    rintro c _ rfl
    -- what is done about a child, whether or not it was made active
    refine .bind_ite Iff.rfl (activate_renames f j) rfl ?_
    rintro g _ rfl
    simp only [orphanBelow_rename, Label.parent_rename]
    cases m.parent with
    | root => exact .ok rfl
    | orphan => exact .ok rfl
    | via p =>
      refine (h.head p).bind ?_
      rintro v _ rfl
      exact .ite Iff.rfl (fun _ => .ok rfl) fun _ => .ok rfl

theorem releaseAll_renames (h : t.Renames ρ t') (side : Segment) (i : Nat) (f : Forest)
    (as : List ArcRef) :
    Paired (fun g g' => g' = g.rename ρ) (releaseAll t side i f as)
      (releaseAll t' side i (f.rename ρ) (as.map (ArcRef.rename ρ))) := by
  induction as generalizing f with
  | nil => exact .ok rfl
  | cons a as ih =>
    refine (releaseAlong_renames h side i f a).bind ?_
    rintro g _ rfl
    exact ih g

theorem release_renames (h : t.Renames ρ t') (side : Segment) (f : Forest) (i : Nat) :
    Paired (fun g g' => g' = g.rename ρ) (release t side f i)
      (release t' side (f.rename ρ) i) := by
  have hset : (f.rename ρ).setLabel i none = (f.setLabel i none).rename ρ :=
    setLabel_rename f i none
  unfold release
  rw [hset]
  refine (h.around i).bind ?_
  rintro as _ rfl
  exact releaseAll_renames h side i _ as

theorem settle_renames (h : t.Renames ρ t') (f : Forest) (i : Nat) :
    Paired (fun g g' => g' = g.rename ρ) (settle t f i) (settle t' (f.rename ρ) i) := by
  unfold settle
  refine (f.fetch_rename i).bind ?_
  rintro l _ rfl
  cases l with
  | none => exact .error_left _
  | some l =>
    refine (h.around i).bind ?_
    rintro as _ rfl
    refine (considerAll_renames h l.side f none as).bind ?_
    rintro ⟨g, best⟩ _ rfl
    cases best with
    | some c => exact .ok (setLabel_some_rename g i ⟨l.side, .via c.arc, g.clock, c.depth + 1⟩)
    | none => exact release_renames h l.side g i

theorem settleNext_renames (h : t.Renames ρ t') (f : Forest) :
    Paired (fun g g' => g' = g.map (Forest.rename ρ)) (settleNext t f)
      (settleNext t' (f.rename ρ)) := by
  unfold settleNext
  rw [orphans_rename]
  cases f.orphans.next? with
  | none => exact .ok rfl
  | some p =>
    refine (settle_renames h { f with orphans := p.2 } p.1).bind ?_
    rintro g _ rfl
    exact .ok rfl

theorem adoptAll_renames (h : t.Renames ρ t') (f : Forest) (fuel : Nat) :
    Paired (fun p q => q = (p.1.rename ρ, p.2)) (adoptAll t f fuel)
      (adoptAll t' (f.rename ρ) fuel) := by
  induction fuel generalizing f with
  | zero =>
    unfold adoptAll
    refine (settleNext_renames h f).bind ?_
    rintro g _ rfl
    cases g with
    | none => exact .ok rfl
    | some g => exact .error_left _
  | succ fuel ih =>
    unfold adoptAll
    refine (settleNext_renames h f).bind ?_
    rintro g _ rfl
    cases g with
    | none => exact .ok rfl
    | some g =>
      refine (ih g).bind ?_
      rintro p _ rfl
      exact .ok rfl

/-- **Settling the orphans** gives each of them the same parent, or frees it. -/
theorem adopt_renames (h : t.Renames ρ t') (f : Forest) :
    Paired (fun p q => q = (p.1.rename ρ, p.2)) (adopt t f) (adopt t' (f.rename ρ)) := by
  unfold adopt
  rw [size_labels_rename]
  exact adoptAll_renames h f _

end Forest

end MinCut
