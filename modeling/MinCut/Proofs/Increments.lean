/-
# Additions to terminal weights

An addition is checked against the weights that the earlier ones have left.  No amount is
negative, so these partial sums fit if the last ones do, whatever the order; and what the
additions leave depends on the sums alone.

Key facts:
* `total_perm` : the sums do not depend on the order;
* `call_increment` : an addition is made if its two sums are values of the register;
* `transcript_increments` : a list of additions is made if there is room for it;
* `transcript_setTotals` : setting the sums leaves the same graph;
* `additions_orderFree` : additions in any order.
-/
import MinCut.Graph.Increments
import MinCut.Proofs.Edits
import MinCut.Proofs.OverflowDecision

namespace MinCut

variable {r : Register} {bits : Nat}

/-! ## Sums of weights -/

namespace TerminalWeights

variable {w x y : TerminalWeights}

@[simp] theorem plus_zero (w : TerminalWeights) : w.plus .zero = w := by
  simp [plus, zero]

theorem plus_assoc (w x y : TerminalWeights) : (w.plus x).plus y = w.plus (x.plus y) := by
  simp only [plus, Int.add_assoc]

theorem plus_left_comm (w x y : TerminalWeights) : w.plus (x.plus y) = x.plus (w.plus y) := by
  simp only [plus, Int.add_left_comm]

theorem IsNonneg.plus (hw : w.IsNonneg) (hx : x.IsNonneg) : (w.plus x).IsNonneg :=
  ⟨Int.add_nonneg hw.1 hx.1, Int.add_nonneg hw.2 hx.2⟩

/-- A partial sum is a value of the register if the whole sum is. -/
theorem Fits.of_plus (hr : r.IsMachine bits) (hw : w.IsNonneg) (hx : x.IsNonneg)
    (h : (w.plus x).Fits r) : w.Fits r := by
  have hfit : ∀ a b : Int, 0 ≤ a → 0 ≤ b → r.fits (a + b) = true → r.fits a = true := by
    intro a b ha hb hab
    have hle := hr.le_limit hab
    exact Register.fits_of_mem_compared hr.mem_compared ha (by omega)
  exact ⟨hfit _ _ hw.1 hx.1 h.1, hfit _ _ hw.2 hx.2 h.2⟩

end TerminalWeights

namespace Increment

variable {d : Increment} {ds es : List Increment} {v : Nat}

@[simp] theorem total_nil (v : Nat) : total [] v = .zero := rfl

theorem total_cons (d : Increment) (ds : List Increment) (v : Nat) :
    total (d :: ds) v = if d.node = v then d.weights.plus (total ds v) else total ds v := rfl

/-- What is added to a node is added by one of the additions, or by all the others. -/
theorem total_cons_eq_plus (d : Increment) (ds : List Increment) (v : Nat) :
    total (d :: ds) v = (total [d] v).plus (total ds v) := by
  rw [total_cons, total_cons, total_nil]
  split <;> simp [TerminalWeights.plus, TerminalWeights.zero]

/-- **The sums** do not depend on the order. -/
theorem total_perm (h : es.Perm ds) (v : Nat) : total es v = total ds v := by
  induction h with
  | nil => rfl
  | cons d _ ih => rw [total_cons, total_cons, ih]
  | swap d e ds =>
    rw [total_cons_eq_plus e, total_cons_eq_plus d, total_cons_eq_plus d (e :: ds),
      total_cons_eq_plus e ds, TerminalWeights.plus_left_comm]
  | trans _ _ ih ih' => rw [ih, ih']

theorem total_nonneg (h : ∀ d ∈ ds, d.weights.IsNonneg) (v : Nat) : (total ds v).IsNonneg := by
  induction ds with
  | nil => exact ⟨Int.le_refl 0, Int.le_refl 0⟩
  | cons d ds ih =>
    have hrest := ih fun e he => h e (List.mem_cons_of_mem d he)
    rw [total_cons]
    split
    · exact (h d List.mem_cons_self).plus hrest
    · exact hrest

/-- Nothing is added to a node that is not named. -/
theorem total_eq_zero (h : ∀ d ∈ ds, d.node ≠ v) : total ds v = .zero := by
  induction ds with
  | nil => rfl
  | cons d ds ih =>
    rw [total_cons, if_neg (h d List.mem_cons_self)]
    exact ih fun e he => h e (List.mem_cons_of_mem d he)

end Increment

namespace Graph

variable {g g' : Graph r} {d : Increment} {ds es : List Increment} {v : Nat} {vs : List Nat}

/-! ## Other weights -/

/-- The graph whose weights are rewritten node by node. -/
def mapWeights (g : Graph r) (f : Nat → TerminalWeights → TerminalWeights) : Graph r :=
  g.withTerminals (g.network.terminals.mapIdx f)

section Rewriting

variable {f f' : Nat → TerminalWeights → TerminalWeights}

@[simp] theorem numNodes_mapWeights : (g.mapWeights f).numNodes = g.numNodes := by
  simp [numNodes, Network.numNodes, mapWeights, withTerminals]

@[simp] theorem search_mapWeights : (g.mapWeights f).search = g.search := rfl

theorem getElem?_terminals (hv : v < g.numNodes) :
    g.network.terminals[v]? = some (g.terminalWeights v) := by
  have hsize : v < g.network.terminals.size := hv
  simp [terminalWeights, hsize]

theorem terminalWeights_mapWeights (hv : v < g.numNodes) :
    (g.mapWeights f).terminalWeights v = f v (g.terminalWeights v) := by
  have hget : (g.network.terminals.mapIdx f)[v]? = some (f v (g.terminalWeights v)) := by
    rw [Array.getElem?_mapIdx, getElem?_terminals hv, Option.map_some]
  simp only [terminalWeights, mapWeights, withTerminals] at hget ⊢
  rw [hget, Option.getD_some]

/-- Two rewritings are alike if they agree on the weights of every node. -/
theorem mapWeights_congr (h : ∀ v < g.numNodes, f v (g.terminalWeights v) =
    f' v (g.terminalWeights v)) : g.mapWeights f = g.mapWeights f' := by
  have hmap : g.network.terminals.mapIdx f = g.network.terminals.mapIdx f' := by
    apply Array.ext_getElem?
    intro v
    rw [Array.getElem?_mapIdx, Array.getElem?_mapIdx]
    by_cases hv : v < g.numNodes
    · rw [getElem?_terminals hv, Option.map_some, Option.map_some, h v hv]
    · rw [Array.getElem?_eq_none (Nat.le_of_not_lt hv), Option.map_none, Option.map_none]
  rw [mapWeights, mapWeights, hmap]

theorem mapWeights_mapWeights : (g.mapWeights f).mapWeights f' =
    g.mapWeights fun v w => f' v (f v w) := by
  simp only [mapWeights, withTerminals, Array.mapIdx_mapIdx, Function.comp_def]

theorem mapWeights_id (g : Graph r) : (g.mapWeights fun _ w => w) = g := by
  have hmap : g.network.terminals.mapIdx (fun _ w => w) = g.network.terminals := by
    apply Array.ext_getElem?
    intro v
    rw [Array.getElem?_mapIdx, Option.map_id']
  rw [mapWeights, hmap]
  rfl

/-- Other weights for one node. -/
theorem setWeights_eq (g : Graph r) (v : Nat) (w : TerminalWeights) :
    g.withTerminals (g.network.terminals.setIfInBounds v w) =
      g.mapWeights fun u x => if u = v then w else x := by
  have hmap : g.network.terminals.setIfInBounds v w =
      g.network.terminals.mapIdx fun u x => if u = v then w else x := by
    apply Array.ext_getElem?
    intro u
    rw [Array.getElem?_setIfInBounds, Array.getElem?_mapIdx]
    by_cases huv : u = v
    · subst huv
      by_cases hu : u < g.network.terminals.size <;> simp [hu]
    · simp [huv, Ne.symm huv]
  rw [hmap, mapWeights]

end Rewriting

/-! ## Graphs that are not solved -/

/-- **A graph under construction** : its weights are values of the register, none of them
negative. -/
structure Open (g : Graph r) : Prop where
  search_eq : g.search = none
  nonneg : ∀ v < g.numNodes, (g.terminalWeights v).IsNonneg
  fits : ∀ v < g.numNodes, (g.terminalWeights v).Fits r

theorem Built.isOpen (hr : r.IsMachine bits) (hg : g.Built) (hs : g.status = .notSolved) :
    g.Open := by
  have hp := hg.plain hr hs
  have hweights : ∀ v < g.numNodes, 0 ≤ (g.terminalWeights v).source ∧
      (g.terminalWeights v).source ≤ Register.limit bits ∧ 0 ≤ (g.terminalWeights v).sink ∧
      (g.terminalWeights v).sink ≤ Register.limit bits :=
    fun v hv => hp.weights (Array.mem_of_getElem? (getElem?_terminals hv))
  refine ⟨checkEditable_eq_ok ((checkEditable_eq_ok_iff g).2 hs), fun v hv => ?_, fun v hv => ?_⟩
  · obtain ⟨hsource, -, hsink, -⟩ := hweights v hv
    exact ⟨hsource, hsink⟩
  · obtain ⟨hsource, hsource', hsink, hsink'⟩ := hweights v hv
    exact ⟨Register.fits_of_mem_compared hr.mem_compared hsource hsource',
      Register.fits_of_mem_compared hr.mem_compared hsink hsink'⟩

/-! ## One call -/

/-- If all nodes that are named exist and no capacity is negative, the sums are checked. -/
theorem refusal?_of_sound {e : Edit} (hs : g.search = none)
    (hnodes : ∀ v ∈ e.nodes, v < g.numNodes) (hcapacities : ∀ x ∈ e.capacities, 0 ≤ x) :
    g.refusal? e = if ∃ z ∈ e.sums g, r.fits z = false then some .overflow else none := by
  have hnone : ¬ ∃ x ∈ e.capacities, x < 0 := by
    rintro ⟨x, hx, hneg⟩
    have hnonneg := hcapacities x hx
    omega
  rw [refusal?_of_nodes (by simp [hs]) hnodes, if_neg hnone]

/-- The weights that are set replace those of the node. -/
theorem call_setWeights (hs : g.search = none) (hv : v < g.numNodes) {w : TerminalWeights}
    (hw : w.IsNonneg) : g.call (.edit (.setTerminalWeights v w.source w.sink)) =
      (⟨.done, []⟩, g.mapWeights fun u x => if u = v then w else x) := by
  have hrefusal : g.refusal? (.setTerminalWeights v w.source w.sink) = none := by
    rw [refusal?_of_sound hs (by simpa [Edit.nodes] using hv)
      (by simpa [Edit.capacities, TerminalWeights.IsNonneg] using hw)]
    simp [Edit.sums]
  simp only [call, edit_eq, hrefusal, made, setWeights_eq]

/-- The graph whose weights have grown by what the additions come to. -/
def withIncrements (g : Graph r) (ds : List Increment) : Graph r :=
  g.mapWeights fun v w => w.plus (Increment.total ds v)

/-- **An addition** is made if its two sums are values of the register, and else refused. -/
theorem call_increment (hs : g.search = none) (hd : d.node < g.numNodes) (hw : d.weights.IsNonneg) :
    ((g.totalWeights [d] d.node).Fits r ∧ g.call d.call = (⟨.done, []⟩, g.withIncrements [d])) ∨
      (¬ (g.totalWeights [d] d.node).Fits r ∧ g.call d.call = (⟨.refused .overflow, []⟩, g)) := by
  have hsum : g.totalWeights [d] d.node = (g.terminalWeights d.node).plus d.weights := by
    rw [totalWeights, Increment.total_cons, if_pos rfl, Increment.total_nil,
      TerminalWeights.plus_zero]
  have hrefusal := refusal?_of_sound hs
    (e := .addTerminalWeights d.node d.weights.source d.weights.sink)
    (by simpa [Edit.nodes] using hd) (by simpa [Edit.capacities, TerminalWeights.IsNonneg] using hw)
  have hsums : (∃ z ∈ Edit.sums g (.addTerminalWeights d.node d.weights.source d.weights.sink),
      r.fits z = false) ↔ ¬ (g.totalWeights [d] d.node).Fits r := by
    rw [hsum]
    simp only [Edit.sums, List.mem_cons, List.not_mem_nil, or_false, exists_eq_or_imp,
      exists_eq_left, TerminalWeights.Fits, TerminalWeights.plus]
    grind
  by_cases hfits : (g.totalWeights [d] d.node).Fits r
  · refine .inl ⟨hfits, ?_⟩
    rw [if_neg (by rwa [hsums, not_not])] at hrefusal
    have hgrown : g.withIncrements [d] =
        g.mapWeights fun u x => if u = d.node then (g.terminalWeights d.node).plus d.weights
          else x := by
      apply mapWeights_congr
      intro u _
      rw [Increment.total_cons]
      by_cases hu : u = d.node
      · subst hu
        simp
      · simp [hu, Ne.symm hu]
    rw [hgrown, ← setWeights_eq]
    simp only [Increment.call, call, edit_eq, hrefusal, made, TerminalWeights.plus]
  · refine .inr ⟨hfits, ?_⟩
    rw [if_pos (hsums.2 hfits)] at hrefusal
    simp only [Increment.call, call, edit_eq, hrefusal, eventsOfRefusal]

/-! ## A list of calls -/

theorem totalWeights_withIncrements (hv : v < g.numNodes) :
    (g.withIncrements [d]).totalWeights ds v = g.totalWeights (d :: ds) v := by
  rw [totalWeights, totalWeights, withIncrements, terminalWeights_mapWeights hv,
    Increment.total_cons_eq_plus d ds, TerminalWeights.plus_assoc]

/-- What is added later is added to what was added before. -/
theorem withIncrements_withIncrements :
    (g.withIncrements [d]).withIncrements ds = g.withIncrements (d :: ds) := by
  simp only [withIncrements, mapWeights_mapWeights, Increment.total_cons_eq_plus d ds,
    TerminalWeights.plus_assoc]

/-- There is room for a list of additions if there is room for the first and then for the
others. -/
theorem hasRoom_cons_iff : g.HasRoom (d :: ds) ↔ (g.withIncrements [d]).HasRoom ds := by
  simp only [HasRoom, withIncrements, numNodes_mapWeights]
  exact forall₂_congr fun v hv => by rw [← totalWeights_withIncrements hv, withIncrements]

/-- An addition that is made leaves a graph under construction. -/
theorem Open.withIncrement (hg : g.Open) (hw : d.weights.IsNonneg)
    (hfits : (g.totalWeights [d] d.node).Fits r) : (g.withIncrements [d]).Open := by
  refine ⟨hg.search_eq, fun v hv => ?_, fun v hv => ?_⟩
  · rw [withIncrements, numNodes_mapWeights] at hv
    rw [withIncrements, terminalWeights_mapWeights hv]
    exact (hg.nonneg v hv).plus (Increment.total_nonneg (by simpa using hw) v)
  · rw [withIncrements, numNodes_mapWeights] at hv
    rw [withIncrements, terminalWeights_mapWeights hv]
    by_cases hvd : v = d.node
    · subst hvd
      exact hfits
    · rw [Increment.total_eq_zero (by simpa using Ne.symm hvd), TerminalWeights.plus_zero]
      exact hg.fits v hv

/-- If there is room for all additions, there is room for the first. -/
theorem HasRoom.head (hr : r.IsMachine bits) (hg : g.Open) (hd : d.node < g.numNodes)
    (hds : ∀ e ∈ d :: ds, e.weights.IsNonneg) (h : g.HasRoom (d :: ds)) :
    (g.totalWeights [d] d.node).Fits r := by
  have hfirst : (Increment.total [d] d.node).IsNonneg :=
    Increment.total_nonneg (by simpa using hds d List.mem_cons_self) _
  have hrest : (Increment.total ds d.node).IsNonneg :=
    Increment.total_nonneg (fun e he => hds e (List.mem_cons_of_mem d he)) _
  have hall := h d.node hd
  rw [totalWeights, Increment.total_cons_eq_plus, ← TerminalWeights.plus_assoc] at hall
  exact hall.of_plus hr ((hg.nonneg _ hd).plus hfirst) hrest

/-- **A list of additions** is made exactly if there is room for it, and then the weights have
grown by the sums. -/
theorem transcript_increments (hr : r.IsMachine bits) (hg : g.Open)
    (hds : ∀ d ∈ ds, d.node < g.numNodes ∧ d.weights.IsNonneg) :
    (AllDone (transcript call g (ds.map Increment.call)).1 ↔ g.HasRoom ds) ∧
      (g.HasRoom ds →
        (transcript call g (ds.map Increment.call)).2 = g.withIncrements ds) := by
  induction ds generalizing g with
  | nil =>
    have hroom : g.HasRoom [] := by
      intro v hv
      rw [totalWeights, Increment.total_nil, TerminalWeights.plus_zero]
      exact hg.fits v hv
    refine ⟨iff_of_true (by simp [AllDone, transcript]) hroom, fun _ => ?_⟩
    simp only [withIncrements, Increment.total_nil, TerminalWeights.plus_zero]
    exact (mapWeights_id g).symm
  | cons d ds ih =>
    obtain ⟨hd, hw⟩ := hds d List.mem_cons_self
    rcases call_increment hg.search_eq hd hw with ⟨hfits, hcall⟩ | ⟨hfits, hcall⟩
    · have hrest := ih (g := g.withIncrements [d]) (hg.withIncrement hw hfits) fun e he => by
        rw [withIncrements, numNodes_mapWeights]
        exact hds e (List.mem_cons_of_mem d he)
      rw [← hasRoom_cons_iff, withIncrements_withIncrements] at hrest
      simp only [List.map_cons, transcript, hcall, AllDone, List.mem_cons, forall_eq_or_imp,
        true_and]
      exact hrest
    · -- the first sum would have fitted if there were room for all
      have hroom : ¬ g.HasRoom (d :: ds) :=
        fun h => hfits (h.head hr hg hd fun e he => (hds e he).2)
      refine ⟨iff_of_false ?_ hroom, fun h => absurd h hroom⟩
      intro hdone
      have hhead := hdone ⟨.refused .overflow, []⟩ (by simp [transcript, hcall])
      cases hhead

/-- **A list of nodes whose weights are set** : each has the weights it was given, however often. -/
theorem transcript_setWeights (hs : g.search = none) {w : Nat → TerminalWeights}
    (hvs : ∀ v ∈ vs, v < g.numNodes ∧ (w v).IsNonneg) :
    let answers := transcript call g
      (vs.map fun v => .edit (.setTerminalWeights v (w v).source (w v).sink))
    AllDone answers.1 ∧ answers.2 = g.mapWeights fun v x => if v ∈ vs then w v else x := by
  induction vs generalizing g with
  | nil => exact ⟨by simp [AllDone, transcript], by simpa [transcript] using (mapWeights_id g).symm⟩
  | cons v vs ih =>
    obtain ⟨hv, hw⟩ := hvs v List.mem_cons_self
    obtain ⟨hdone, hlast⟩ := ih (g := g.mapWeights fun u x => if u = v then w v else x) hs
      fun u hu => by
        rw [numNodes_mapWeights]
        exact hvs u (List.mem_cons_of_mem v hu)
    simp only [List.map_cons, transcript, call_setWeights hs hv hw]
    refine ⟨?_, ?_⟩
    · simpa only [AllDone, List.mem_cons, forall_eq_or_imp, true_and] using hdone
    · rw [hlast, mapWeights_mapWeights]
      apply mapWeights_congr
      intro u _
      by_cases huv : u = v
      · subst huv
        simp
      · simp [huv]

/-! ## Additions in any order -/

/-- The weights have grown by the sums, and nothing else is changed. -/
theorem accumulates_withIncrements (g : Graph r) (ds : List Increment) :
    g.Accumulates (g.withIncrements ds) ds where
  weights v hv := terminalWeights_mapWeights hv
  others v hv hvs := by
    rw [withIncrements, terminalWeights_mapWeights hv, Increment.total_eq_zero hvs,
      TerminalWeights.plus_zero]
  numNodes_eq := numNodes_mapWeights
  edges_eq := rfl
  config_eq := rfl
  search_eq := rfl

/-- **Additions in any order.**  A list of additions is made exactly if there is room for it.  Then
every other order is made too and leaves the same graph, whose weights have grown by the sums;
setting the sums of the nodes that are named leaves it as well. -/
theorem additions_orderFree (hr : r.IsMachine bits) (hg : g.Built) (hs : g.status = .notSolved)
    (hds : ∀ d ∈ ds, d.node < g.numNodes ∧ d.weights.IsNonneg) :
    (AllDone (transcript call g (ds.map Increment.call)).1 ↔ g.HasRoom ds) ∧
      (g.HasRoom ds → ∃ g', g.Accumulates g' ds ∧
        (∀ es : List Increment, es.Perm ds → AllDone (transcript call g (es.map Increment.call)).1 ∧
          (transcript call g (es.map Increment.call)).2 = g') ∧
        ∀ vs : List Nat, (∀ v, v ∈ vs ↔ ∃ d ∈ ds, d.node = v) →
          AllDone (transcript call g (vs.map (g.setTotal ds))).1 ∧
            (transcript call g (vs.map (g.setTotal ds))).2 = g') := by
  have hopen := hg.isOpen hr hs
  refine ⟨(transcript_increments hr hopen hds).1, fun hroom => ?_⟩
  refine ⟨g.withIncrements ds, accumulates_withIncrements g ds, ?_, ?_⟩
  · intro es hperm
    have hsums : Increment.total es = Increment.total ds := funext (Increment.total_perm hperm)
    have hroom' : g.HasRoom es := by
      simpa only [HasRoom, totalWeights, hsums] using hroom
    obtain ⟨hdone, hlast⟩ :=
      transcript_increments hr hopen fun d hd => hds d (hperm.mem_iff.1 hd)
    refine ⟨hdone.2 hroom', ?_⟩
    rw [hlast hroom', withIncrements, withIncrements, hsums]
  · intro vs hvs
    have hnonneg : ∀ v < g.numNodes, (g.totalWeights ds v).IsNonneg := fun v hv =>
      (hopen.nonneg v hv).plus (Increment.total_nonneg (fun d hd => (hds d hd).2) v)
    have hnamed : ∀ v ∈ vs, v < g.numNodes ∧ (g.totalWeights ds v).IsNonneg := by
      intro v hv
      obtain ⟨d, hd, rfl⟩ := (hvs v).1 hv
      exact ⟨(hds d hd).1, hnonneg _ (hds d hd).1⟩
    obtain ⟨hdone, hlast⟩ := transcript_setWeights hopen.search_eq hnamed
    refine ⟨hdone, hlast.trans (mapWeights_congr fun v hv => ?_)⟩
    split
    · rfl
    · rename_i hnot
      have hunnamed : ∀ d ∈ ds, d.node ≠ v := fun d hd hdv => hnot ((hvs v).2 ⟨d, hd, hdv⟩)
      rw [Increment.total_eq_zero hunnamed, TerminalWeights.plus_zero]

/-- Three additions to the bridge that exhaust a register of eight bits, made backwards. -/
theorem additions_orderFree_bridge :
    let ds : List Increment := [⟨0, ⟨100, 1⟩⟩, ⟨1, ⟨0, 124⟩⟩, ⟨0, ⟨22, 0⟩⟩]
    ∃ g', (bridge (.signed 8)).Accumulates g' ds ∧ g'.terminalWeights 0 = ⟨127, 1⟩ ∧
      AllDone (transcript call (bridge (.signed 8)) (ds.reverse.map Increment.call)).1 ∧
        (transcript call (bridge (.signed 8)) (ds.reverse.map Increment.call)).2 = g' := by
  intro ds
  have hr : (Register.signed 8).IsMachine 8 := ⟨by decide, .inl rfl⟩
  have hds : ∀ d ∈ ds, d.node < (bridge (.signed 8)).numNodes ∧ d.weights.IsNonneg := by decide
  obtain ⟨-, hroom⟩ := additions_orderFree hr bridge_built rfl hds
  obtain ⟨g', hsums, horder, -⟩ := hroom (by decide)
  exact ⟨g', hsums, hsums.weights 0 (by decide), horder _ ds.reverse_perm⟩

/-- With one more unit there is no room. -/
example : ¬ (bridge (.signed 8)).HasRoom [⟨0, ⟨100, 1⟩⟩, ⟨0, ⟨23, 0⟩⟩] := by decide

end Graph

end MinCut
