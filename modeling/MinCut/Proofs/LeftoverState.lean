/-
# What is left over does not matter

What a solver is left with before a solve has no influence on it.  Two solvers with the same arcs,
the same excesses and the same setting augment the same paths and end alike, except that a free
node keeps the tree and the depth that were in its cell.  The flow and the counters advance by the
same amounts.

A second solve of the same solver has nothing to augment, so it begins and ends with the same arcs
and excesses.  The free nodes then keep what they kept before, so every later solve ends with the
very same cells.

Key facts:
* `endAlike_sameSolves` : two solves that end alike are the same but for what is left over;
* `cells_eq_of_unchanged` : a solve that changed no arc and no excess is repeated exactly;
* `After.agrees` : what the solves of one solver have made of it, by induction on the solves;
* `settles` : from the second solve on nothing changes, in any register;
* `solve_eq_up_to_leftovers` : these facts together.
-/
import MinCut.Proofs.LeftoverSolves
import MinCut.Proofs.SolverRegisters
import MinCut.Proofs.SolverRuns

namespace MinCut

/-! ## Differences of flows -/

/-- The values that a register tells apart repeat after this many, if they do. -/
def Register.period : Register → Int
  | .wrapping bits => numValues bits
  | _ => 0

/-- What a register holds is what was put into it, up to periods. -/
theorem Register.period_dvd_of_store {r : Register} {x y : Int} (h : r.store x = .ok y) :
    r.period ∣ x - y := by
  cases r with
  | exact =>
    obtain rfl := Except.ok.inj h
    simp
  | wrapping bits =>
    obtain rfl := Except.ok.inj h
    exact Int.dvd_self_sub_bmod
  | bounded lo hi =>
    obtain ⟨-, rfl⟩ := store_bounded_eq_ok_iff.1 h
    simp

namespace Solver

variable {r : Register} {N : Network} {s s' : Search} {v v' w w' x y : Solver}
variable {as bs : List Augmentation} {j k n n' : Nat} {m flow flow' : Int}

/-- A flow advances by the sum of the bottlenecks, up to periods. -/
theorem period_dvd_of_advance (h : advance r flow as = .ok flow') :
    r.period ∣ flow + (as.map Augmentation.bottleneck).sum - flow' := by
  induction as generalizing flow with
  | nil =>
    obtain rfl := Except.ok.inj h
    simp
  | cons a as ih =>
    obtain ⟨mid, hmid, hrest⟩ := bind_eq_ok_iff.1 h
    have hstep := Int.dvd_add (Register.period_dvd_of_store hmid) (ih hrest)
    rw [List.map_cons, List.sum_cons]
    convert hstep using 1
    omega

/-! ## Two solvers -/

/-- **The two solves are the same but for what is left over**: one has led from `v` to `v'` and the
other from `w` to `w'`.  They made the same augmentations, in order, and ended with the same arcs,
excesses, parents and times.  A node that is in a tree has the same cell, so also the same tree and
the same depth.  The flows advance by the same bottlenecks, and the counters by the same numbers. -/
structure SameSolves (r : Register) (v v' w w' : Solver) (as bs : List Augmentation) : Prop where
  augmented_eq : bs = as
  arcs_eq : w'.arcs = v'.arcs
  excess_eq : w'.excess = v'.excess
  parent_eq : w'.cells.map Cell.parent = v'.cells.map Cell.parent
  stamp_eq : w'.cells.map Cell.stamp = v'.cells.map Cell.stamp
  cell_eq : ∀ (u : Nat) (c d : Cell), v'.cells[u]? = some c → w'.cells[u]? = some d →
    c.parent ≠ none → d = c
  flow_eq : advance r v.flow as = .ok v'.flow ∧ advance r w.flow as = .ok w'.flow
  flow_sub : r.period ∣ (w'.flow - w.flow) - (v'.flow - v.flow)
  augmentations_eq : v'.augmentations = v.augmentations + as.length ∧
    w'.augmentations = w.augmentations + as.length
  adoptions_eq : ∃ k, v'.adoptions = v.adoptions + k ∧ w'.adoptions = w.adoptions + k

/-- What is seen of a cell that is left over is the same in both solvers. -/
theorem Alike.map_cells_eq {α : Type} {phase : Phase} (h : Alike r v w as phase v' w')
    (p : Cell → α)
    (hp : ∀ c d : Cell, c.parent = none → d.parent = none → c.stamp = 0 → d.stamp = 0 →
      p d = p c) : w'.cells.map p = v'.cells.map p := by
  apply Array.ext_getElem?
  intro u
  rw [Array.getElem?_map, Array.getElem?_map]
  rcases h.cells u with heq | ⟨⟨-, c, -, hc, hcp, hcs, -, -⟩, ⟨-, d, -, hd, hdp, hds, -, -⟩⟩
  · rw [heq]
  · rw [hc, hd, Option.map_some, Option.map_some, hp c d hcp hdp hcs hds]

/-- **Two solves that end alike** are the same but for what is left over. -/
theorem endAlike_sameSolves (h : Alike.EndAlike r v w (v', as) (w', bs)) :
    SameSolves r v v' w w' as bs := by
  obtain ⟨rfl, h⟩ := h
  replace h : Alike r v w bs .growing v' w' := h
  refine ⟨rfl, h.arcs_eq, h.excess_eq, ?_, ?_, ?_, ⟨h.flow_eq, h.flow_eq'⟩, ?_,
    ⟨h.augmentations_eq, h.augmentations_eq'⟩, h.adoptions_eq⟩
  · exact h.map_cells_eq Cell.parent fun c d hc hd _ _ => hd.trans hc.symm
  · exact h.map_cells_eq Cell.stamp fun c d _ _ hc hd => hd.trans hc.symm
  · intro u c d hc hd hparent
    rcases h.cells u with heq | ⟨⟨-, c', -, hc', hfree, -⟩, -⟩
    · exact Option.some.inj (hd.symm.trans (heq.trans hc))
    · obtain rfl := Option.some.inj (hc.symm.trans hc')
      exact absurd hfree hparent
  · have hv := period_dvd_of_advance h.flow_eq
    have hw := period_dvd_of_advance h.flow_eq'
    convert Int.dvd_sub hv hw using 1
    omega

/-! ## One solver again and again -/

/-- Two solves that end alike end with the same cells if what is left over from one is also left
over from the other. -/
theorem cells_eq_of_leftOver (h : Alike.EndAlike r v w (v', as) (w', bs))
    (hkept : ∀ (u : Nat) (c d : Cell), IsLeftOver v v' u → v.cells[u]? = some c →
      w.cells[u]? = some d → d.side = c.side ∧ d.depth = c.depth) : w'.cells = v'.cells := by
  apply Array.ext_getElem?
  intro u
  rcases h.2.cells u with heq | ⟨hleft, d₀, d, hd₀, hd, hdp, hds, hdside, hddepth⟩
  · exact heq
  · obtain ⟨c₀, c, hc₀, hc, hcp, hcs, hcside, hcdepth⟩ := hleft
    obtain ⟨hside, hdepth⟩ :=
      hkept u c₀ d₀ ⟨c₀, c, hc₀, hc, hcp, hcs, hcside, hcdepth⟩ hc₀ hd₀
    have hexcess : d.excess = c.excess :=
      fetch_excess h.2.excess_eq u c d (fetch_eq_ok_iff.2 hc) (fetch_eq_ok_iff.2 hd)
    have hcell : d = c :=
      Cell.ext hexcess (hdp.trans hcp.symm) (hdside.trans (hside.trans hcside.symm))
        (hds.trans hcs.symm) (hddepth.trans (hdepth.trans hcdepth.symm))
    show w'.cells[u]? = v'.cells[u]?
    rw [hc, hd, hcell]

/-- **A solve is determined** by the solver, whatever its bound. -/
theorem solve_unique (h : v.solve r n = .ok (x, as)) (h' : v.solve r n' = .ok (y, bs)) : y = x := by
  have hend : Alike.EndAlike r v v (x, as) (y, bs) :=
    alike_solve rfl rfl rfl _ _ h h'
  obtain ⟨rfl, halike⟩ := hend
  have hcells : y.cells = x.cells := by
    refine cells_eq_of_leftOver ⟨rfl, halike⟩ ?_
    intro u c d _ hc hd
    obtain rfl := Option.some.inj (hc.symm.trans hd)
    exact ⟨rfl, rfl⟩
  obtain ⟨k, hk, hk'⟩ := halike.adoptions_eq
  exact Solver.ext halike.arcs_eq hcells halike.active_eq halike.orphans_eq halike.clock_eq
    (Except.ok.inj (halike.flow_eq'.symm.trans halike.flow_eq)) halike.reparent_eq
    (halike.augmentations_eq'.trans halike.augmentations_eq.symm) (hk'.trans hk.symm)

/-- **A solve that changed no arc and no excess** is repeated exactly: the free nodes keep what they
kept before. -/
theorem cells_eq_of_unchanged (harcs : w.arcs = v.arcs) (hexcess : w.excess = v.excess)
    (hreparent : w.reparent = v.reparent) (hv : v.solve r n = .ok (w, as))
    (hw : w.solve r n' = .ok (x, bs)) : x.cells = w.cells ∧ x.arcs = w.arcs := by
  have hend : Alike.EndAlike r v w (w, as) (x, bs) :=
    alike_solve harcs hexcess hreparent _ _ hv hw
  refine ⟨cells_eq_of_leftOver hend ?_, hend.2.arcs_eq⟩
  -- what the first solve left over is what the second one begins with
  intro u c d hleft hc hd
  obtain ⟨c₀, c', hc₀, hc', -, -, hside, hdepth⟩ := hleft
  obtain rfl := Option.some.inj (hc.symm.trans hc₀)
  obtain rfl := Option.some.inj (hd.symm.trans hc')
  exact ⟨hside, hdepth⟩

/-- The solver agrees with the search in what a solve depends on. -/
structure Agrees (v : Solver) (s : Search) : Prop where
  arcs_eq : v.arcs = s.residual.arcs
  excess_eq : v.excess = s.residual.excess
  reparent_eq : v.reparent = s.reparent

/-- **A solve of a solver that agrees with a search** makes the augmentations of its solve and ends
in agreement with it, whatever the flow and the counters. -/
theorem Agrees.of_solve (hr : r.Keeps m) (hN : N.WellFormed) (hm : N.Fits m)
    (hs : SearchOf r N s) (h : v.Agrees s) (hok : s.solve r = .ok (s', as))
    (hv : v.solve r n = .ok (w, bs)) : bs = as ∧ w.Agrees s' := by
  -- beside the solver stands one with the flow of the search
  have hresidual : residual { v with flow := s.residual.flow } = s.residual := by
    show (⟨v.arcs, v.excess, s.residual.flow⟩ : Residual) = s.residual
    rw [h.arcs_eq, h.excess_eq]
  obtain ⟨n', w', hw', hshows⟩ :=
    exists_solve_of_searchOf hr hN hm hs hok hresidual h.reparent_eq
  have hend := alike_solve (v := { v with flow := s.residual.flow }) (w := v) rfl rfl rfl _ _ hw' hv
  obtain ⟨rfl, halike⟩ : Alike.EndAlike r _ v (w', as) (w, bs) := hend
  exact ⟨rfl, halike.arcs_eq.trans hshows.arcs_eq, halike.excess_eq.trans hshows.excess_eq,
    halike.reparent_eq.trans hshows.reparent_eq⟩

/-- The last of several solves. -/
theorem After.exists_last (h : After r v (k + 1) w) :
    ∃ x n as, After r v k x ∧ x.solve r n = .ok (w, as) := by
  cases h with
  | solve hx hsolve => exact ⟨_, _, _, hx, hsolve⟩

/-- What a number of solves have made of a solver is determined. -/
theorem After.unique (h : After r v k x) (h' : After r v k y) : y = x := by
  induction h generalizing y with
  | zero =>
    cases h'
    rfl
  | solve _ hsolve ih =>
    obtain ⟨z, n, as, hz, hsolve'⟩ := h'.exists_last
    obtain rfl := ih hz
    exact solve_unique hsolve hsolve'

/-- **After any solves** but none the solver agrees with the search after its first solve: all later
ones augment nothing. -/
theorem After.agrees (hr : r.Keeps m) (hN : N.WellFormed) (hm : N.Fits m) (hs : SearchOf r N s)
    (h : v.Agrees s) (hok : s.solve r = .ok (s', as)) (hw : After r v (k + 1) w) :
    w.Agrees s' := by
  induction k generalizing w with
  | zero =>
    obtain ⟨x, n, bs, hx, hsolve⟩ := hw.exists_last
    cases hx
    exact (h.of_solve hr hN hm hs hok hsolve).2
  | succ k ih =>
    obtain ⟨x, n, bs, hx, hsolve⟩ := hw.exists_last
    obtain ⟨s'', as', hok', hcomplete, -⟩ := hs.exists_solve hr hN hm
    obtain ⟨rfl, rfl⟩ := Prod.mk.inj (Except.ok.inj (hok.symm.trans hok'))
    obtain ⟨f, hf, -⟩ := hcomplete.solve_eq hN hm
    have hagrees := ((ih hx).of_solve hr hN hm (hs.solved hok) (hf r hr) hsolve).2
    exact ⟨hagrees.arcs_eq, hagrees.excess_eq, hagrees.reparent_eq⟩

/-- **From the second solve on** the cells and the arcs are the same, by induction on the solves. -/
theorem After.cells_eq (hr : r.Keeps m) (hN : N.WellFormed) (hm : N.Fits m) (hs : SearchOf r N s)
    (h : v.Agrees s) (hw : After r v (j + 2) w) (hx : After r v (k + (j + 2)) x) :
    x.cells = w.cells ∧ x.arcs = w.arcs := by
  obtain ⟨s', as, hok, -, -⟩ := hs.exists_solve hr hN hm
  induction k generalizing x with
  | zero =>
    rw [Nat.zero_add] at hx
    obtain rfl := hw.unique hx
    exact ⟨rfl, rfl⟩
  | succ k ih =>
    rw [Nat.succ_add] at hx
    obtain ⟨y, n, bs, hy, hsolve⟩ := hx.exists_last
    obtain ⟨z, n', bs', hz, hsolve'⟩ := After.exists_last (k := k + j + 1) hy
    have hagrees := hy.agrees (k := k + j + 1) hr hN hm hs h hok
    have hagrees' := hz.agrees (k := k + j) hr hN hm hs h hok
    obtain ⟨hcells, harcs⟩ := cells_eq_of_unchanged
      (hagrees.arcs_eq.trans hagrees'.arcs_eq.symm)
      (hagrees.excess_eq.trans hagrees'.excess_eq.symm)
      (hagrees.reparent_eq.trans hagrees'.reparent_eq.symm) hsolve' hsolve
    obtain ⟨hcells', harcs'⟩ := ih hy
    exact ⟨hcells.trans hcells', harcs.trans harcs'⟩

/-- Every solve of a solver that shows the residual network of a search runs to its end. -/
theorem exists_after (hr : r.Keeps m) (hN : N.WellFormed) (hm : N.Fits m) (hs : SearchOf r N s)
    (hresidual : v.residual = s.residual) (hreparent : v.reparent = s.reparent) (k : Nat) :
    ∃ w s', After r v k w ∧ SearchOf r N s' ∧ w.residual = s'.residual ∧
      w.reparent = s'.reparent := by
  induction k with
  | zero => exact ⟨v, s, .zero, hs, hresidual, hreparent⟩
  | succ k ih =>
    obtain ⟨w, s₁, hw, hs₁, hresidual₁, hreparent₁⟩ := ih
    obtain ⟨s₂, as, hok, -, -⟩ := hs₁.exists_solve hr hN hm
    obtain ⟨n, x, hx, hshows⟩ :=
      exists_solve_of_searchOf hr hN hm hs₁ hok hresidual₁ hreparent₁
    exact ⟨x, s₂, hw.solve hx, hs₁.solved hok, hshows.residual_eq, hshows.reparent_eq⟩

/-- **The solves of one solver settle**: whatever was left over before the first, the cells and the
arcs after the second and after any later one are the same, as long as they run without error. -/
def Settles (r : Register) (v : Solver) : Prop :=
  ∀ j k w x, 2 ≤ j → 2 ≤ k → After r v j w → After r v k x →
    x.cells = w.cells ∧ x.arcs = w.arcs

/-- The solves settle in a register with room for the capacities. -/
theorem settles_of_keeps (hr : r.Keeps m) (hN : N.WellFormed) (hm : N.Fits m)
    (hs : SearchOf r N s) (h : v.Agrees s) : Settles r v := by
  have hlater : ∀ {j k : Nat} {w x : Solver}, 2 ≤ j → j ≤ k → After r v j w → After r v k x →
      x.cells = w.cells ∧ x.arcs = w.arcs := by
    intro j k w x hj hjk hw hx
    obtain ⟨j, rfl⟩ : ∃ j', j = j' + 2 := ⟨j - 2, by omega⟩
    obtain ⟨k, rfl⟩ : ∃ k', k = k' + (j + 2) := ⟨k - (j + 2), by omega⟩
    exact hw.cells_eq hr hN hm hs h hx
  intro j k w x hj hk hw hx
  rcases Nat.le_total j k with hjk | hkj
  · exact hlater hj hjk hw hx
  · obtain ⟨hcells, harcs⟩ := hlater hk hkj hx hw
    exact ⟨hcells.symm, harcs.symm⟩

/-- A register that wraps around has room for the capacities of the network. -/
def HasRoom (r : Register) (N : Network) : Prop :=
  ∀ bits, r = .wrapping bits → ∃ m, r.Keeps m ∧ N.Fits m

/-- **The solves settle** in every register, if it has room in case that it wraps around. -/
theorem settles (hr : HasRoom r N) (hN : N.WellFormed) (hs : SearchOf .exact N s)
    (h : v.Agrees s) : Settles r v := by
  rcases r.refuses_or_wrapping with hrefuses | ⟨bits, hwrapping⟩
  · -- solves that are not refused are solves over the integers
    obtain ⟨m, hm⟩ := N.exists_fits
    have hexact := settles_of_keeps (Register.keeps_exact m) hN hm hs h
    intro j k w x hj hk hw hx
    exact hexact j k w x hj hk (hrefuses.after hw) (hrefuses.after hx)
  · obtain ⟨m, hkeeps, hm⟩ := hr bits hwrapping
    exact settles_of_keeps hkeeps hN hm (hs.of_exact hkeeps hN hm) h

/-! ## What is left over -/

/-- **What is left over in a solver has no influence on a solve.**  Two solvers with the same arcs,
excesses and setting go through the same solve, whatever else they hold, if it runs without error.
So the solves of one solver end with the same cells and arcs from the second one on.  None of them
fails if the network is admissible, and then the register has room as well. -/
theorem solve_eq_up_to_leftovers :
    (∀ (r : Register) (v w v' w' : Solver) (n m : Nat) (as bs : List Augmentation),
      w.arcs = v.arcs → w.excess = v.excess → w.reparent = v.reparent →
        v.solve r n = .ok (v', as) → w.solve r m = .ok (w', bs) →
          SameSolves r v v' w w' as bs) ∧
    (∀ (r : Register) (N : Network) (s : Search) (v : Solver), HasRoom r N → N.WellFormed →
      SearchOf .exact N s → v.Agrees s → Settles r v) ∧
    ∀ (r : Register) (bits : Nat) (N : Network) (s : Search) (v : Solver), r.IsMachine bits →
      N.Admissible r → SearchOf .exact N s → v.Agrees s → v.flow = s.residual.flow →
        HasRoom r N ∧ ∀ k, ∃ w, After r v k w := by
  refine ⟨?_, ?_, ?_⟩
  · intro r v w v' w' n m as bs harcs hexcess hreparent hv hw
    exact endAlike_sameSolves (alike_solve harcs hexcess hreparent _ _ hv hw)
  · intro r N s v hr hN hs h
    exact settles hr hN hs h
  · intro r bits N s v hr hN hs h hflow
    have hm := hN.fits hr
    have hresidual : v.residual = s.residual := by
      rw [residual, h.arcs_eq, h.excess_eq, hflow]
    refine ⟨fun _ _ => ⟨_, hr.keeps, hm⟩, fun k => ?_⟩
    have hs' := hs.of_exact hr.keeps hN.toWellFormed hm
    obtain ⟨w, -, hw, -⟩ := exists_after hr.keeps hN.toWellFormed hm hs' hresidual h.reparent_eq k
    exact ⟨w, hw⟩

/-- A bridge between two nodes, and a third node that is in no tree. -/
def spareNode : Network where
  edges := #[.idle 0 1 3 1]
  terminals := #[⟨5, 0⟩, ⟨0, 3⟩, ⟨0, 0⟩]

/-- The solver with other things left over in it. -/
def littered (v : Solver) : Solver :=
  { v with
    cells := v.cells.map fun c => ⟨c.excess, some .orphan, .sink, 7, 9⟩
    active := ⟨⟨[2], [1]⟩, #[]⟩
    orphans := ⟨[0], .empty⟩
    clock := 5 }

/-- What is left over in the cell of the third node is seen in the end, and no more than that. -/
theorem solve_eq_up_to_leftovers_spareNode : ∃ v v' w' as,
    Solver.ofNetwork .exact spareNode true = .ok v ∧
      SameSolves (.signed 8) v v' v.littered w' as as ∧ as = [⟨3, 0, 1⟩] ∧ w'.cells ≠ v'.cells ∧
        ∃ x y, After (.signed 8) v.littered 2 x ∧ After (.signed 8) v.littered 5 y ∧
          y.cells = x.cells ∧ y.arcs = x.arcs := by
  have hrun : (do
      let v ← Solver.ofNetwork .exact spareNode true
      let p ← v.solve (.signed 8) 20
      let q ← v.littered.solve (.signed 8) 20
      return (p.2, q.2, decide (q.1.cells = p.1.cells))) =
        .ok ([⟨3, 0, 1⟩], [⟨3, 0, 1⟩], false) := by decide +kernel
  obtain ⟨v, hv, hrun⟩ := bind_eq_ok_iff.1 hrun
  obtain ⟨⟨v', as⟩, hsolve, hrun⟩ := bind_eq_ok_iff.1 hrun
  obtain ⟨⟨w', bs⟩, hsolve', hrun⟩ := bind_eq_ok_iff.1 hrun
  simp only [pure, Except.pure, Except.ok.injEq, Prod.mk.injEq, decide_eq_false_iff_not] at hrun
  obtain ⟨rfl, rfl, hne⟩ := hrun
  have hexcess : v.littered.excess = v.excess := by
    simp only [excess, littered, Array.map_map]
    rfl
  -- the search of the same network
  obtain ⟨R, hR, hv'⟩ := bind_eq_ok_iff.1 hv
  obtain rfl := Except.ok.inj hv'
  have hadmissible : spareNode.Admissible (.signed 8) :=
    ⟨⟨by decide, by decide, by decide, by decide, by decide, by decide⟩, by decide, by decide,
      by decide +kernel⟩
  have hs : SearchOf .exact spareNode ⟨R, .unsearched spareNode.numNodes, true, 0, 0⟩ :=
    .new (bind_eq_ok_iff.2 ⟨R, hR, rfl⟩)
  have hagrees : Agrees (littered _) ⟨R, .unsearched spareNode.numNodes, true, 0, 0⟩ :=
    ⟨rfl, hexcess.trans (by simp [excess, Function.comp_def]), rfl⟩
  obtain ⟨hroom, hruns⟩ := solve_eq_up_to_leftovers.2.2 (.signed 8) 8 spareNode _ _
    ⟨by decide, Or.inl rfl⟩ hadmissible hs hagrees rfl
  have hsettles := solve_eq_up_to_leftovers.2.1 _ _ _ _ hroom hadmissible.toWellFormed hs hagrees
  obtain ⟨x, hx⟩ := hruns 2
  obtain ⟨y, hy⟩ := hruns 5
  exact ⟨_, v', w', _, hv,
    solve_eq_up_to_leftovers.1 _ _ _ _ _ _ _ _ _ rfl hexcess rfl hsolve hsolve', rfl, hne, x, y,
    hx, hy, hsettles 2 5 x y (by decide) (by decide) hx hy⟩

end Solver

end MinCut
