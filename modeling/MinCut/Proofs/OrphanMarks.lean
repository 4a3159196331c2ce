/-
# The list of orphans and the nodes that wait for a parent

A node joins the list of orphans when it loses its parent and leaves it when it is settled, so at
every moment in between the list tells which nodes wait for a parent.  The orphans of an
augmentation are stacked, and no step of an adopt phase touches the stack but the one that takes
its topmost node, which is taken only when no other node of the cascade is left.

Key facts:
* `Severing.saturated_eq` : the pushes stack the nodes that they cost their parents;
* `Severing.listed` : the list is right after every push, by induction on the pushes;
* `saturated_of_settle` : settling an orphan leaves the stack alone;
* `Unstacks.saturated_eq` : the stack during an adopt phase, by induction on the orphans settled;
* `orphanList_agrees` : every augment and adopt phase of every solve.
-/
import MinCut.Proofs.Augmentations

namespace MinCut

/-! ## Taking an orphan -/

namespace OrphanList

variable {l l' : OrphanList} {u : Nat}

/-- An orphan comes from the stack only if the cascade is empty. -/
theorem cascade_of_next? (h : l.next? = some (u, l')) (hu : l.saturated = u :: l'.saturated) :
    l'.cascade.toList = [] := by
  rcases next?_cases h with ⟨cascade, -, rfl⟩ | ⟨saturated, hnil, -, rfl⟩
  · simp at hu
  · exact hnil

/-- An orphan comes from the cascade, which leaves the stack, or from the top of the stack. -/
theorem saturated_of_next? (h : l.next? = some (u, l')) :
    l'.saturated = l.saturated ∨ l.saturated = u :: l'.saturated := by
  rcases next?_cases h with ⟨cascade, -, rfl⟩ | ⟨saturated, -, htop, rfl⟩
  · exact .inl rfl
  · exact .inr htop

end OrphanList

namespace Forest

variable {t : ArcTable} {f f₀ g : Forest} {a : ArcRef} {as : List ArcRef} {u i d : Nat}
variable {l k : Label} {side : Segment} {best best' : Option Candidate} {us : List Nat}
variable {o : OrphanList}

/-! ## Settling leaves the stack alone -/

theorem orphans_of_markUp (h : markUp t f d u = .ok g) : g.orphans = f.orphans := by
  induction d generalizing f u with
  | zero =>
    unfold markUp at h
    obtain ⟨o, -, h⟩ := bind_eq_ok_iff.1 h
    cases o with
    | none => cases h
    | some l =>
      simp only at h
      split at h
      · obtain rfl := Except.ok.inj h
        rfl
      · cases h
  | succ d ih =>
    unfold markUp at h
    obtain ⟨o, -, h⟩ := bind_eq_ok_iff.1 h
    cases o with
    | none => cases h
    | some l =>
      simp only at h
      split at h
      · obtain rfl := Except.ok.inj h
        rfl
      · cases hp : l.parent with
        | orphan =>
          rw [hp] at h
          cases h
        | root =>
          rw [hp] at h
          obtain rfl := Except.ok.inj h
          rfl
        | via a =>
          simp only [hp] at h
          obtain ⟨v, -, h⟩ := bind_eq_ok_iff.1 h
          have hrest := ih h
          exact hrest

theorem orphans_of_consider (h : consider t side f best a = .ok (g, best')) :
    g.orphans = f.orphans := by
  have hstay : ∀ {b}, (Except.ok (f, best) : Except Fault _) = .ok (g, b) →
      g.orphans = f.orphans := by
    intro b h
    obtain ⟨rfl, -⟩ := Prod.mk.inj (Except.ok.inj h)
    rfl
  obtain ⟨c, -, h⟩ := bind_eq_ok_iff.1 h
  split at h
  · exact hstay h
  · obtain ⟨j, -, h⟩ := bind_eq_ok_iff.1 h
    obtain ⟨o, -, h⟩ := bind_eq_ok_iff.1 h
    cases o with
    | none => exact hstay h
    | some m =>
      simp only at h
      split at h
      · exact hstay h
      · obtain ⟨d, -, h⟩ := bind_eq_ok_iff.1 h
        cases d with
        | none => exact hstay h
        | some d =>
          obtain ⟨f₁, hmark, h⟩ := bind_eq_ok_iff.1 h
          obtain ⟨rfl, -⟩ := Prod.mk.inj (Except.ok.inj h)
          exact orphans_of_markUp hmark

theorem orphans_of_considerAll (h : considerAll t side f best as = .ok (g, best')) :
    g.orphans = f.orphans := by
  induction as generalizing f best with
  | nil =>
    obtain ⟨rfl, -⟩ := Prod.mk.inj (Except.ok.inj h)
    rfl
  | cons a as ih =>
    obtain ⟨⟨f₁, b⟩, h₁, h⟩ := bind_eq_ok_iff.1 h
    exact (ih h).trans (orphans_of_consider h₁)

theorem saturated_of_disown (h : disown t i u k f = .ok g) :
    g.orphans.saturated = f.orphans.saturated := by
  rcases disown_cases h with rfl | ⟨p, -, -, rfl⟩ <;> rfl

/-- A child of a node that leaves its tree joins the cascade. -/
theorem saturated_of_releaseAlong (h : releaseAlong t side i f a = .ok g) :
    g.orphans.saturated = f.orphans.saturated := by
  obtain ⟨j, -, ⟨rfl, -⟩ | ⟨k, c, -, -, -, ⟨-, q, -, hdisown⟩ | ⟨-, hdisown⟩⟩⟩ :=
    releaseAlong_cases h
  · rfl
  · exact saturated_of_disown (f := { f with active := q }) hdisown
  · exact saturated_of_disown hdisown

theorem saturated_of_releaseAll (h : releaseAll t side i f as = .ok g) :
    g.orphans.saturated = f.orphans.saturated := by
  induction as generalizing f with
  | nil =>
    obtain rfl := Except.ok.inj h
    rfl
  | cons a as ih =>
    obtain ⟨f₁, h₁, h⟩ := bind_eq_ok_iff.1 h
    exact (ih h).trans (saturated_of_releaseAlong h₁)

/-- **Settling an orphan** leaves the stack alone. -/
theorem saturated_of_settle (h : settle t f i = .ok g) :
    g.orphans.saturated = f.orphans.saturated := by
  obtain ⟨l, as, f₁, best, -, -, hconsider, hcases⟩ := settle_cases h
  have hsame := congrArg OrphanList.saturated (orphans_of_considerAll hconsider)
  rcases hcases with ⟨c, -, rfl⟩ | ⟨-, hrelease⟩
  · exact hsame
  · exact (saturated_of_releaseAll hrelease).trans hsame

/-! ## The stack during a phase -/

/-- Settling one orphan after the other has led from the forest `f₀` to the forest `f`, and the
nodes `us` were taken from the stack meanwhile, in this order. -/
inductive Unstacks (t : ArcTable) (f₀ : Forest) : List Nat → Forest → Prop where
  /-- No orphan has been taken. -/
  | start : Unstacks t f₀ [] f₀
  /-- One more orphan is taken from the cascade. -/
  | cascade {us : List Nat} {f g : Forest} {u : Nat} {o : OrphanList} : Unstacks t f₀ us f →
    f.orphans.next? = some (u, o) → o.saturated = f.orphans.saturated →
    f.settleNext t = .ok (some g) → Unstacks t f₀ us g
  /-- One more orphan is taken from the stack. -/
  | stack {us : List Nat} {f g : Forest} {u : Nat} {o : OrphanList} : Unstacks t f₀ us f →
    f.orphans.next? = some (u, o) → f.orphans.saturated = u :: o.saturated →
    f.settleNext t = .ok (some g) → Unstacks t f₀ (us ++ [u]) g

/-- What is taken from the list is settled. -/
theorem saturated_of_settleNext (hn : f.orphans.next? = some (u, o))
    (h : f.settleNext t = .ok (some g)) : g.orphans.saturated = o.saturated := by
  obtain ⟨u', o', hn', hsettle⟩ := settleNext_eq_ok h
  obtain ⟨rfl, rfl⟩ := Prod.mk.inj (Option.some.inj (hn.symm.trans hn'))
  exact saturated_of_settle hsettle

/-- **The stack during a phase** : what has been taken from it was on top. -/
theorem Unstacks.saturated_eq (h : Unstacks t f₀ us f) :
    f₀.orphans.saturated = us ++ f.orphans.saturated := by
  induction h with
  | start => rfl
  | cascade _ hn hsame hsettle ih =>
    rw [ih, saturated_of_settleNext hn hsettle, hsame]
  | stack _ hn htop hsettle ih =>
    rw [ih, saturated_of_settleNext hn hsettle, htop, List.append_assoc, List.singleton_append]

/-- Every orphan that is settled is taken from the cascade or from the stack. -/
theorem Unstacks.exists_next (h : Unstacks t f₀ us f) (hsettle : f.settleNext t = .ok (some g)) :
    ∃ vs, Unstacks t f₀ vs g := by
  obtain ⟨u, o, hn, -⟩ := settleNext_eq_ok hsettle
  rcases OrphanList.saturated_of_next? hn with hsame | htop
  · exact ⟨us, h.cascade hn hsame hsettle⟩
  · exact ⟨us ++ [u], h.stack hn htop hsettle⟩

end Forest

/-! ## The orphans of an augmentation -/

/-- The node that a push may cost its parent, if there is one. -/
def Push.nodes : Push → List Nat
  | .arc _ => []
  | .step _ u _ => [u]
  | .root _ u => [u]

theorem Push.Severs.nodes_eq {p : Push} {s : Search} {w : Nat} (h : p.Severs s w) :
    p.nodes = [w] := by
  cases p with
  | arc a => exact h.elim
  | step side u a | root side u =>
    obtain ⟨rfl, -⟩ := h
    rfl

/-- The pushes along a path pass each of its nodes once, on the side of the source first. -/
theorem Path.nodes_pushes (p : Path) :
    p.pushes.flatMap Push.nodes = p.source.nodes ++ p.sink.nodes := by
  have hascent : ∀ (q : Ascent) (side : Segment),
      (q.pushes side).flatMap Push.nodes = q.nodes := by
    intro q side
    simp only [Ascent.pushes, Ascent.nodes, List.flatMap_append, List.flatMap_map,
      List.flatMap_singleton, Push.nodes]
    rw [List.map_eq_flatMap]
  rw [pushes, List.flatMap_cons, List.flatMap_append, hascent, hascent]
  rfl

namespace Search

variable {r : Register} {x : Int} {s s' s'' : Search} {p : Push} {ps qs : List Push}
variable {us : List Nat} {w : Nat}

/-- The pushes `ps` of `x` lead from the search `s` to the search `s'`, and on the way the nodes
`us` lose their parents, in this order. -/
inductive Severing (r : Register) (x : Int) : List Push → Search → List Nat → Search → Prop where
  | done {s : Search} : Severing r x [] s [] s
  /-- The first push uses up no bond. -/
  | keeps {p : Push} {ps : List Push} {s s' s'' : Search} {us : List Nat} :
    s.push r x p = .ok s' → (∀ w, ¬ p.Severs s' w) → Severing r x ps s' us s'' →
    Severing r x (p :: ps) s us s''
  /-- The first push costs the node `w` its parent. -/
  | severs {p : Push} {ps : List Push} {s s' s'' : Search} {us : List Nat} {w : Nat} :
    s.push r x p = .ok s' → p.Severs s' w → Severing r x ps s' us s'' →
    Severing r x (p :: ps) s (w :: us) s''

/-- Whatever pushes are made, some nodes lose their parents. -/
theorem exists_severing (h : ps.foldlM (push r x) s = .ok s') :
    ∃ us, Severing r x ps s us s' := by
  induction ps generalizing s with
  | nil =>
    obtain rfl : s = s' := Except.ok.inj h
    exact ⟨[], .done⟩
  | cons p ps ih =>
    rw [List.foldlM_cons] at h
    obtain ⟨s₁, h₁, h⟩ := bind_eq_ok_iff.1 h
    obtain ⟨us, hus⟩ := ih h
    rcases push_queues h₁ with ⟨-, hnone⟩ | ⟨w, l, hw, -⟩
    · exact ⟨us, .keeps h₁ hnone hus⟩
    · exact ⟨w :: us, .severs h₁ hw hus⟩

/-- A push that costs a node its parent takes it away in the forest. -/
theorem forest_of_severs (h : s.push r x p = .ok s') (hw : p.Severs s' w) :
    ∃ l, s.forest.label w = some l ∧ s'.forest = s.forest.cutOff w l := by
  rcases push_queues h with ⟨-, hnone⟩ | ⟨w', l, hw', hl, hforest⟩
  · exact absurd hw (hnone w)
  · obtain rfl : w = w' := List.singleton_inj.1 (hw.nodes_eq.symm.trans hw'.nodes_eq)
    exact ⟨l, hl, hforest⟩

/-- A push that costs no node its parent leaves the forest. -/
theorem forest_of_keeps (h : s.push r x p = .ok s') (hnone : ∀ w, ¬ p.Severs s' w) :
    s'.forest = s.forest := by
  rcases push_queues h with ⟨hforest, -⟩ | ⟨w, l, hw, -⟩
  · exact hforest
  · exact absurd hw (hnone w)

/-- **The stack after some pushes** : the node that lost its parent last is on top. -/
theorem Severing.saturated_eq (h : Severing r x ps s us s') :
    s'.forest.orphans.saturated = us.reverse ++ s.forest.orphans.saturated := by
  induction h with
  | done => rfl
  | keeps hpush hnone _ ih => rw [ih, forest_of_keeps hpush hnone]
  | severs hpush hw _ ih =>
    obtain ⟨l, -, hforest⟩ := forest_of_severs hpush hw
    rw [ih, hforest, List.reverse_cons, List.append_assoc]
    rfl

/-- **The list after some pushes** is right if it was, for no node is passed twice. -/
theorem Severing.listed (h : Severing r x ps s us s') (hs : s.forest.Listed)
    (hnodup : (ps.flatMap Push.nodes).Nodup)
    (hparent : ∀ u ∈ ps.flatMap Push.nodes, ∀ l, s.forest.label u = some l → l.parent ≠ .orphan) :
    s'.forest.Listed := by
  induction h with
  | done => exact hs
  | keeps hpush hnone _ ih =>
    rw [List.flatMap_cons] at hnodup hparent
    have hforest := forest_of_keeps hpush hnone
    refine ih (hforest ▸ hs) (List.nodup_append.1 hnodup).2.1 ?_
    rw [hforest]
    exact fun u hu => hparent u (List.mem_append_right _ hu)
  | @severs p ps s s₁ s₂ us w hpush hw _ ih =>
    rw [List.flatMap_cons, hw.nodes_eq] at hnodup hparent
    obtain ⟨hnot, hnodup⟩ := List.nodup_cons.1 hnodup
    obtain ⟨l, hl, hforest⟩ := forest_of_severs hpush hw
    have hcut := hs.cutOff hl (hparent _ List.mem_cons_self l hl)
    refine ih (hforest ▸ hcut) hnodup fun u hu k hk => ?_
    -- no later push passes the node that has just lost its parent
    have hne : w ≠ u := fun heq => hnot (heq ▸ hu)
    rw [hforest, Forest.label_cutOff hl, if_neg hne] at hk
    exact hparent u (List.mem_cons_of_mem _ hu) k hk

end Search

/-! ## Every phase of every solve -/

variable {r : Register} {N : Network} {m : Int} {bits i : Nat} {mt : Meeting} {s s₀ : Search}
variable {f : Forest} {a : Augmentation} {us : List Nat}

/-- **The list and the marks agree** : the nodes in the list of orphans are those that wait for a
parent, and none is listed twice. -/
def Forest.OrphansAgree (f : Forest) : Prop :=
  f.orphans.order.Nodup ∧ ∀ u, u ∈ f.orphans.order ↔ f.IsOrphan u

theorem Forest.Listed.orphansAgree (h : f.Listed) : f.OrphansAgree := by
  refine ⟨h.nodup, fun u => ?_⟩
  rw [h.mem_iff]
  simp only [label_eq_some_iff]
  rfl

/-- **Between two pushes** of an augmentation the list is right. -/
theorem AtPush.listed (hr : r.Keeps m) (hN : N.WellFormed) (hm : N.Fits m) (h : AtPush r N i s) :
    s.forest.Listed := by
  obtain ⟨mt, s₀, p, b, as, bs, hmeet, hpath, -, hpushes, hfold⟩ := h
  have hmet := hmeet.met hr hN hm
  obtain ⟨p', hpath', hconnects, -⟩ := hmet.exists_connects
  obtain rfl := Except.ok.inj (hpath'.symm.trans hpath)
  have hnodes : (p'.pushes.flatMap Push.nodes).Nodup := by
    rw [p'.nodes_pushes]
    exact ((List.reverse_perm p'.source.nodes).append_right p'.sink.nodes).nodup_iff.1
      hconnects.nodup
  rw [hpushes, List.flatMap_append] at hnodes
  obtain ⟨us, hsevering⟩ := Search.exists_severing hfold
  exact hsevering.listed hmet.listed (List.nodup_append.1 hnodes).1
    fun u _ l hl => hmet.settled u l hl

theorem AtRepair.of_unstacks (h : AtRepair r N i s s.forest)
    (hf : Forest.Unstacks s.residual.arcs s.forest us f) : AtRepair r N i s f := by
  induction hf with
  | start => exact h
  | cascade _ _ _ hsettle ih => exact ih.settled hsettle
  | stack _ _ _ hsettle ih => exact ih.settled hsettle

theorem AtRepair.exists_unstacks (h : AtRepair r N i s f) :
    ∃ us, Forest.Unstacks s.residual.arcs s.forest us f := by
  induction h with
  | start => exact ⟨[], .start⟩
  | settled _ hsettle ih =>
    obtain ⟨us, hus⟩ := ih
    exact hus.exists_next hsettle

/-- **The list of orphans and their marks agree** in every solve of an admissible network: after
every push of an augmentation, between two orphans that are settled, and between two arcs around
one that leaves its tree.  The stack is emptied from the top: at every moment of a phase what was
taken from it and what is left make up the nodes that the augmentation has cost their parents,
backwards, and whenever a node is taken from it, those that are left are all the other nodes that
wait for a parent. -/
theorem orphanList_agrees (hr : r.IsMachine bits) (hN : N.Admissible r) :
    (∀ i s, AtPush r N i s → s.forest.OrphansAgree) ∧
    (∀ i s f, AtRepair r N i s f → f.OrphansAgree) ∧
    (∀ i s u f, AtRelease r N i s u f → f.OrphansAgree) ∧
    ∀ i mt s₀ s a, AtMeeting r N i mt s₀ → s₀.augment r mt = .ok (s, a) →
      ∃ p us s₁, s₀.forest.path s₀.residual.arcs mt = .ok p ∧
        Search.Severing r a.bottleneck p.pushes s₀ us s₁ ∧ s₁.forest = s.forest ∧
        (∀ f, AtRepair r N i s f → ∃ ws, Forest.Unstacks s.residual.arcs s.forest ws f) ∧
        ∀ ws f, Forest.Unstacks s.residual.arcs s.forest ws f →
          us.reverse = ws ++ f.orphans.saturated ∧
          ∀ u o, f.orphans.next? = some (u, o) → f.orphans.saturated = u :: o.saturated →
            o.cascade.toList = [] ∧ ∀ w, w ∈ o.saturated ↔ f.IsOrphan w ∧ w ≠ u := by
  have hk := hr.keeps
  have hwf := hN.toWellFormed
  have hm := hN.fits hr
  refine ⟨fun i s h => (h.listed hk hwf hm).orphansAgree,
    fun i s f h => (h.repairing hk hwf hm).2.listed.orphansAgree, fun i s u f h => ?_, ?_⟩
  · obtain ⟨side, as, hrel⟩ := h.releasing hk hwf hm
    exact hrel.listed.orphansAgree
  · intro i mt s₀ s a hmeet haug
    obtain ⟨p, s₁, flow, hpath, -, hfold, -, rfl⟩ := Search.augment_eq_ok haug
    obtain ⟨us, hsevering⟩ := Search.exists_severing hfold
    refine ⟨p, us, s₁, hpath, hsevering, rfl, fun f h => h.exists_unstacks, ?_⟩
    intro ws f hf
    have hstack := hsevering.saturated_eq
    have hmet := hmeet.met hk hwf hm
    have hempty : s₀.forest.orphans.saturated = [] := by
      have hnil := hmet.listed.order_eq_nil hmet.settled
      exact (List.append_eq_nil_iff.1 hnil).2
    rw [hempty, List.append_nil] at hstack
    refine ⟨hstack.symm.trans hf.saturated_eq, fun u o hnext htop => ?_⟩
    have hnil := OrphanList.cascade_of_next? hnext htop
    have horder := OrphanList.order_next? hnext
    rw [show o.order = o.saturated by rw [OrphanList.order, hnil, List.nil_append]] at horder
    obtain ⟨hnodup, hmem⟩ :=
      (((AtRepair.start hmeet haug).of_unstacks hf).repairing hk hwf hm).2.listed.orphansAgree
    rw [horder] at hnodup
    refine ⟨hnil, fun w => ?_⟩
    rw [← hmem, horder, List.mem_cons]
    have hnot := (List.nodup_cons.1 hnodup).1
    constructor
    · intro hw
      exact ⟨.inr hw, fun heq => hnot (heq ▸ hw)⟩
    · rintro ⟨heq | hw, hne⟩
      · exact absurd heq hne
      · exact hw

/-- The third augmentation of the detour costs the nodes 1, 0 and 3 their parents; node 3 is the
first to be settled. -/
theorem orphanList_agrees_detour : ∃ (i : Nat) (mt : Meeting) (s₀ s : Search) (a : Augmentation)
    (p : Path) (s₁ : Search), AtMeeting (.signed 8) detour i mt s₀ ∧
      s₀.augment (.signed 8) mt = .ok (s, a) ∧
      Search.Severing (.signed 8) a.bottleneck p.pushes s₀ [1, 0, 3] s₁ ∧
      s.forest.orphans.order = [3, 0, 1] ∧ s.forest.OrphansAgree ∧
      ∀ w, w ∈ [0, 1] ↔ s.forest.IsOrphan w ∧ w ≠ 3 := by
  obtain ⟨i, mt, s₀, hat, heval⟩ := exists_atMeeting_of_headAfter (r := .signed 8) (N := detour)
    (p := fun q => do
      let done ← q.2.2.augment (.signed 8) q.2.1
      return decide (done.1.forest.orphans = ⟨[3, 0, 1], .empty⟩))
    (b := true) true 3 (by decide +kernel)
  obtain ⟨⟨s, a⟩, haug, heval⟩ := bind_eq_ok_iff.1 heval
  have horphans := of_decide_eq_true (Except.ok.inj heval)
  obtain ⟨-, hagree, -, hphase⟩ := orphanList_agrees ⟨by decide, Or.inl rfl⟩ detour_admissible
  obtain ⟨p, us, s₁, -, hsevering, -, -, hstack⟩ := hphase i mt s₀ s a hat haug
  obtain ⟨hus, hnext⟩ := hstack [] s.forest .start
  rw [horphans] at hus hnext
  obtain rfl : us = [1, 0, 3] := by simpa using congrArg List.reverse hus
  exact ⟨i, mt, s₀, s, a, p, s₁, hat, haug, hsevering, by rw [horphans]; rfl,
    hagree i s _ (.start hat haug), (hnext 3 ⟨[0, 1], .empty⟩ rfl rfl).2⟩

end MinCut
