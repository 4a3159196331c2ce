/-
# Termination

A solve ends, and so does all that it does on the way.  The loop uses up waiting nodes or supply
at every turn, the queue loses a node whenever it is asked for one, an adopt phase measures or
frees an orphan at every step, and every walk along parents comes nearer to a root, so that it
meets no node twice.  A walk or loop with a bound ends if the bound does not matter from some
number on.

Every augmentation of any solve adds to one flow, which no solve can make larger than a minimum
cut, so all solves of a network together augment no more often than the flow can grow.

Key facts:
* `SearchOf.exists_solve` : every solve ends;
* `HasAugmented.flow_eq` : the flow that all augmentations together have made, by induction on the
  solves;
* `solves_end` : every loop and every walk ends, and the augmentations are bounded.
-/
import Mathlib.Algebra.Order.BigOperators.Group.List
import MinCut.Proofs.ForestAtHeads
import MinCut.Proofs.InPlace
import MinCut.Proofs.SolvedGraphs

namespace MinCut

variable {r : Register} {N : Network} {m : Int} {bits : Nat} {s : Search} {x : Run}
variable {as : List Augmentation}

/-! ## Solves -/

/-- The search is a new one of the network, or what a number of solves have made of one, and `as`
lists all augmentations of these solves. -/
inductive HasAugmented (r : Register) (N : Network) : Search → List Augmentation → Prop where
  | new {reparent : Bool} {s : Search} : Search.ofNetwork r N reparent = .ok s →
    HasAugmented r N s []
  | solved {s s' : Search} {as bs : List Augmentation} :
    HasAugmented r N s as → s.solve r = .ok (s', bs) → HasAugmented r N s' (as ++ bs)

theorem HasAugmented.searchOf (h : HasAugmented r N s as) : SearchOf r N s := by
  induction h with
  | new hs => exact .new hs
  | solved _ hs ih => exact .solved ih hs

/-- **Every solve ends**, with a complete forest over a balanced residual network. -/
theorem SearchOf.exists_solve (hr : r.Keeps m) (hN : N.WellFormed) (hm : N.Fits m)
    (h : SearchOf r N s) :
    ∃ s' as, s.solve r = .ok (s', as) ∧ s'.Complete N ∧ s.Accounts N s' as := by
  obtain ⟨s', as, hok, hcomplete, hacc⟩ := Search.solve_spec hN hm (h.balances hr hN hm)
  exact ⟨s', as, hok r hr, hcomplete, hacc⟩

/-- **The flow that all augmentations have made.** -/
theorem HasAugmented.flow_eq (hr : r.Keeps m) (hN : N.WellFormed) (hm : N.Fits m)
    (h : HasAugmented r N s as) :
    s.residual.flow = (N.nodeSum fun _ t => min t.source t.sink) +
      (as.map Augmentation.bottleneck).sum ∧ ∀ a ∈ as, 0 < a.bottleneck := by
  induction h with
  | new hs =>
    obtain ⟨R, hR, -, hflow⟩ := Search.ofNetwork_spec hN hm
    rw [hR r hr] at hs
    obtain rfl := Except.ok.inj hs
    exact ⟨by simpa using hflow, by simp⟩
  | solved h hs ih =>
    obtain ⟨hflow, hpos⟩ := ih
    obtain ⟨s', bs, hok, -, hacc⟩ := h.searchOf.exists_solve hr hN hm
    rw [hok] at hs
    obtain ⟨rfl, rfl⟩ := Prod.mk.inj (Except.ok.inj hs)
    refine ⟨?_, fun a ha => (List.mem_append.1 ha).elim (hpos a) (hacc.bottleneck_pos a)⟩
    rw [hacc.flow_eq, hflow, List.map_append, List.sum_append, Int.add_assoc]

/-- Augmentations are no more than what they push together. -/
theorem length_le_sum_bottleneck (h : ∀ a ∈ as, 0 < a.bottleneck) :
    (as.length : Int) ≤ (as.map Augmentation.bottleneck).sum := by
  have hle := (as.map Augmentation.bottleneck).card_nsmul_le_sum 1 fun x hx => by
    obtain ⟨a, ha, rfl⟩ := List.mem_map.1 hx
    exact h a ha
  simpa using hle

/-! ## Everything ends -/

/-- **All that is done in the solves of a network ends**: the solves themselves, whether nodes are
taken over within a tree or not, the loop from every head on, the search of the queue for an
active node, the walks from a meeting to the terminals, first to find out how much the path can
take and then to push it, the adopt phases, and the walks of an orphan from the nodes around it.
Every solve returns the same flow, and all solves together augment no more often than it exceeds the
flow at the outset. -/
structure SolvesEnd (r : Register) (N : Network) : Prop where
  outset : ∀ reparent, ∃ s, Search.ofNetwork r N reparent = .ok s
  solve : ∀ s, SearchOf r N s → ∃ s' as, s.solve r = .ok (s', as)
  loop : ∀ x, AtHead r N x → ∃ s as, EndsWithin x.remaining (x.finish r) (s, as)
  queue : ∀ f, AtQueue r N f →
    ∃ o g, EndsWithin f.active.waiting.length f.nextActive (o, g)
  ascents : ∀ i mt s, AtMeeting r N i mt s → ∀ u ∈ [mt.sourceEnd, mt.sinkEnd],
    ∃ p, EndsWithin N.numNodes (fun n => s.forest.ascend s.residual.arcs n u) p
  pushing : ∀ i mt s, AtMeeting r N i mt s → ∃ p x s₁ s₂ s₃,
    s.forest.path s.residual.arcs mt = .ok p ∧ s.residual.bottleneck r p = .ok x ∧
      s.pushArc r x mt.middle = .ok s₁ ∧
        EndsWithin N.numNodes (fun n => s₁.pushUp r .source x n mt.sourceEnd) s₂ ∧
          EndsWithin N.numNodes (fun n => s₂.pushUp r .sink x n mt.sinkEnd) s₃
  adoption : ∀ i s f, AtRepair r N i s f →
    ∃ g c, EndsWithin N.numNodes (Forest.adoptAll s.residual.arcs f) (g, c)
  measuring : ∀ i s u f, AtArc r N i s u f → ∀ (v : Nat) (l : Label),
    f.labels[v]? = some (some l) →
      ∃ o, EndsWithin N.numNodes (fun n => Forest.depth? s.residual.arcs f n v) o ∧
        ∀ d, o = some d → ∃ g, Forest.markUp s.residual.arcs f d v = .ok g
  augmentations : ∃ flow, (∀ s s' as, SearchOf r N s → s.solve r = .ok (s', as) →
    s'.residual.flow = flow) ∧ ∀ s as, HasAugmented r N s as →
      (as.length : Int) ≤ flow - N.nodeSum fun _ t => min t.source t.sink

/-- The walks from a meeting to the terminals end. -/
theorem AtMeeting.exists_ascend (hr : r.Keeps m) (hN : N.WellFormed) (hm : N.Fits m) {i u : Nat}
    {mt : Meeting} (h : AtMeeting r N i mt s) (hu : u ∈ [mt.sourceEnd, mt.sinkEnd]) :
    ∃ p, EndsWithin N.numNodes (fun n => s.forest.ascend s.residual.arcs n u) p := by
  have hmet := h.met hr hN hm
  obtain ⟨l, hl⟩ : ∃ l, s.forest.label u = some l := by
    rcases List.mem_pair.1 hu with rfl | rfl
    · exact hmet.joins.source_label.imp fun _ hl => hl.1
    · exact hmet.joins.sink_label.imp fun _ hl => hl.1
  obtain ⟨p, hp, -⟩ := Forest.exists_limb hmet.sound hmet.ordered hmet.settled hl
  exact ⟨p, hp.mono (Nat.le_of_eq (hmet.sound.size_labels hmet.within))⟩

/-- The walks that push from a meeting to the terminals end. -/
theorem AtMeeting.exists_pushUp (hr : r.Keeps m) (hN : N.WellFormed) (hm : N.Fits m) {i : Nat}
    {mt : Meeting} (h : AtMeeting r N i mt s) : ∃ p x s₁ s₂ s₃,
      s.forest.path s.residual.arcs mt = .ok p ∧ s.residual.bottleneck r p = .ok x ∧
        s.pushArc r x mt.middle = .ok s₁ ∧
          EndsWithin N.numNodes (fun n => s₁.pushUp r .source x n mt.sourceEnd) s₂ ∧
            EndsWithin N.numNodes (fun n => s₂.pushUp r .sink x n mt.sinkEnd) s₃ := by
  have hmet := h.met hr hN hm
  obtain ⟨s', x, -, -, -, hok⟩ := hmet.augment hN hm
  obtain ⟨p, s₁, s₂, s₃, flow, hpath, hx, -, hup, -⟩ := hmet.exists_pushesUp (hok r hr)
  have hsize := Nat.le_of_eq (hmet.sound.size_labels hmet.within)
  exact ⟨p, x, s₁, s₂, s₃, hpath, hx, hup.arc, hup.source.mono hsize, hup.sink.mono hsize⟩

/-- **The augmentations of all solves together** are no more than the flow has grown. -/
theorem exists_flow (hr : r.Keeps m) (hN : N.WellFormed) (hm : N.Fits m) :
    ∃ flow, (∀ s s' as, SearchOf r N s → s.solve r = .ok (s', as) → s'.residual.flow = flow) ∧
      ∀ s as, HasAugmented r N s as →
        (as.length : Int) ≤ flow - N.nodeSum fun _ t => min t.source t.sink := by
  obtain ⟨R, hR, -, -⟩ := Search.ofNetwork_spec hN hm
  obtain ⟨s₀, -, -, hcomplete₀, -⟩ := (SearchOf.new (hR r hr true)).exists_solve hr hN hm
  refine ⟨s₀.residual.flow, ?_, ?_⟩
  · intro s s' as hs hok
    obtain ⟨t, bs, hok', hcomplete, -⟩ := hs.exists_solve hr hN hm
    rw [hok'] at hok
    obtain ⟨rfl, -⟩ := Prod.mk.inj (Except.ok.inj hok)
    exact hcomplete₀.flow_unique hcomplete hN
  · intro s as h
    obtain ⟨hflow, hpos⟩ := h.flow_eq hr hN hm
    -- one more solve brings the flow to its last value
    obtain ⟨s', bs, -, hcomplete, hacc⟩ := h.searchOf.exists_solve hr hN hm
    have hlast := hcomplete₀.flow_unique hcomplete hN
    have hmore := hacc.flow_eq
    have hle := length_le_sum_bottleneck hpos
    have hle' := length_le_sum_bottleneck hacc.bottleneck_pos
    omega

/-- **Termination.**  In every solve of an admissible network, the first one or a later one, every
loop and every walk ends. -/
theorem solves_end (hr : r.IsMachine bits) (hN : N.Admissible r) : SolvesEnd r N := by
  have hk := hr.keeps
  have hm := hN.fits hr
  have hwf := hN.toWellFormed
  refine ⟨?_, ?_, ?_, ?_, ?_, ?_, ?_, ?_, exists_flow hk hwf hm⟩
  · intro reparent
    obtain ⟨R, hR, -⟩ := Search.ofNetwork_spec hwf hm
    exact ⟨_, hR r hk reparent⟩
  · intro s hs
    obtain ⟨s', as, hok, -⟩ := hs.exists_solve hk hwf hm
    exact ⟨s', as, hok⟩
  · intro x hx
    obtain ⟨s, as, hok, -⟩ := Run.finish_spec hwf hm (hx.sound hk hwf hm)
    exact ⟨s, as, hok r hk⟩
  · intro f hf
    exact hf.nextActive hk hwf hm
  · intro i mt s h u hu
    exact h.exists_ascend hk hwf hm hu
  · intro i mt s h
    exact h.exists_pushUp hk hwf hm
  · intro i s f h
    obtain ⟨hb, hrep⟩ := h.repairing hk hwf hm
    obtain ⟨g, c, hok, -⟩ := Forest.adoptAll_spec hwf hb.toWithin hrep
    have hcard := f.card_unmeasured_le
    rw [hrep.sound.size_labels hb.toWithin] at hcard
    exact ⟨g, c, hok.mono hcard⟩
  · intro i s u f h v l hl
    obtain ⟨hb, hseek⟩ := h.seeking hk hwf hm
    obtain ⟨o, hok, hmark⟩ := Forest.measure_spec hseek.sound hseek.ordered hseek.exact
      (Forest.label_eq_some_iff.2 hl)
    have hsize := hseek.sound.size_labels hb.toWithin
    exact ⟨o, hok.mono (Nat.le_of_eq hsize), fun d hd => (hmark d hd).imp fun _ hg => hg.1⟩

/-- Three augmentations solve the detour, and the second turn of that solve makes the first one. -/
theorem solves_end_detour : SolvesEnd (.signed 8) detour ∧
    (∃ s as, HasAugmented (.signed 8) detour s as ∧ as.length = 3 ∧ s.residual.flow = 10) ∧
      ∃ i s, AtRepair (.signed 8) detour i s s.forest := by
  refine ⟨solves_end ⟨by decide, Or.inl rfl⟩ detour_admissible, ?_, ?_⟩
  · have hrun : (Search.ofNetwork (.signed 8) detour true >>= Search.solve (.signed 8)).map
        (fun p => (p.2.length, p.1.residual.flow)) = .ok (3, 10) := by decide +kernel
    obtain ⟨⟨s', as⟩, hsolve, heval⟩ := map_eq_ok_iff.1 hrun
    obtain ⟨s, hnew, hsolve⟩ := bind_eq_ok_iff.1 hsolve
    obtain ⟨hlength, hflow⟩ := Prod.mk.inj heval
    exact ⟨s', as, .solved (.new hnew) hsolve, hlength, hflow⟩
  · obtain ⟨x, hx, hturn⟩ := exists_atHead_of_headAfter (r := .signed 8) (N := detour) true 1
      (p := fun x => (x.turn (.signed 8)).map fun t =>
        match t with
        | .next _ a => a
        | .finished _ => none) (b := .ok (some ⟨1, 1, 3⟩))
      (by decide +kernel)
    obtain ⟨t, ht, ha⟩ := map_eq_ok_iff.1 hturn
    cases t with
    | finished s => cases ha
    | next y a =>
      obtain rfl : a = _ := ha
      obtain ⟨i, mt, s, s', hmeet, haugment, -⟩ := hx.exists_meeting ht
      exact ⟨i, s', .start hmeet haugment⟩

end MinCut
