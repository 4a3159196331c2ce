/-
# Between two steps of a solve

Growing, augmenting and settling an orphan are loops as well: over the arcs around a node, over
the pushes along a path, and over the arcs around the orphan, which are gone through once more if
it finds no parent.  The state between two steps of such a loop is what the steps so far have made
of the state before it.

Key facts:
* `AtScan.scanning` : the forest between two arcs around a node that grows;
* `AtPush.untouched` : the search between two pushes of an augmentation;
* `AtLeaving.releasing` : the forest between two arcs around a node that leaves its tree.
-/
import MinCut.Proofs.InPlace
import MinCut.Search.Pushes

namespace MinCut

variable {r : Register} {N : Network} {m : Int} {x : Run} {s : Search} {f g : Forest}
variable {i u : Nat} {l : Label} {bs : List ArcRef}

/-! ## The boundaries -/

/-- In one of the solves the node `i`, labelled `l`, has been taken up at the head `x`, and its scan
has come to the forest `f` without a meeting, with the arcs `bs` still ahead. -/
def AtScan (r : Register) (N : Network) (x : Run) (i : Nat) (l : Label) (bs : List ArcRef)
    (f : Forest) : Prop :=
  AtHead r N x ∧ ∃ g as, x.search.forest.choose x.held = .ok (some i, g) ∧
    g.labels[i]? = some (some l) ∧ x.search.residual.arcs.around i = .ok (as ++ bs) ∧
      Forest.growAll x.search.residual.arcs x.search.reparent i l g as = .ok (f, none)

/-- In one of the solves an augmentation has come to the search `s`, after some of the pushes along
its path. -/
def AtPush (r : Register) (N : Network) (i : Nat) (s : Search) : Prop :=
  ∃ mt s₀ p b as bs, AtMeeting r N i mt s₀ ∧ s₀.forest.path s₀.residual.arcs mt = .ok p ∧
    s₀.residual.bottleneck r p = .ok b ∧ p.pushes = as ++ bs ∧
      as.foldlM (Search.push r b) s₀ = .ok s

/-- In an adopt phase the orphan `u` has found no parent and leaves the tree `side`, and the arcs
around it have led to the forest `g`, with the arcs `bs` still ahead. -/
def AtLeaving (r : Register) (N : Network) (i : Nat) (s : Search) (u : Nat) (side : Segment)
    (bs : List ArcRef) (g : Forest) : Prop :=
  ∃ f o l as h, AtRepair r N i s f ∧ f.orphans.next? = some (u, o) ∧
    f.labels[u]? = some (some l) ∧ l.side = side ∧ s.residual.arcs.around u = .ok (as ++ bs) ∧
      Forest.considerAll s.residual.arcs side { f with orphans := o } none (as ++ bs) =
        .ok (h, none) ∧
        Forest.releaseAll s.residual.arcs side u (h.setLabel u none) as = .ok g

/-- In an adopt phase the orphan `u` has found no parent, and while it leaves its tree some of the
arcs around it have led to the forest `g`. -/
def AtRelease (r : Register) (N : Network) (i : Nat) (s : Search) (u : Nat) (g : Forest) : Prop :=
  ∃ side bs, AtLeaving r N i s u side bs g

/-- **Between two steps** of one of the solves the arcs have the table `t`, and the forest is `f`:
at a head, between two arcs around a node that grows, before an augmentation, between two of its
pushes, between two orphans that are settled, or between two arcs around one of them. -/
inductive AtBoundary (r : Register) (N : Network) : ArcTable → Forest → Prop where
  | head {x : Run} : AtHead r N x → AtBoundary r N x.search.residual.arcs x.search.forest
  | scan {x : Run} {i : Nat} {l : Label} {bs : List ArcRef} {f : Forest} :
    AtScan r N x i l bs f → AtBoundary r N x.search.residual.arcs f
  | meeting {i : Nat} {mt : Meeting} {s : Search} :
    AtMeeting r N i mt s → AtBoundary r N s.residual.arcs s.forest
  | push {i : Nat} {s : Search} : AtPush r N i s → AtBoundary r N s.residual.arcs s.forest
  | repair {i : Nat} {s : Search} {f : Forest} :
    AtRepair r N i s f → AtBoundary r N s.residual.arcs f
  | arc {i u : Nat} {s : Search} {f : Forest} :
    AtArc r N i s u f → AtBoundary r N s.residual.arcs f

/-! ## What holds there -/

/-- **Between two arcs** around a node that grows, the forest is as it should be. -/
theorem AtScan.scanning (hr : r.Keeps m) (hN : N.WellFormed) (hm : N.Fits m)
    (h : AtScan r N x i l bs f) :
    x.search.residual.Balances N ∧ f.Scanning x.search.residual i l := by
  obtain ⟨hx, g, as, hchoose, hl, haround, hgrow⟩ := h
  have hsound := hx.sound hr hN hm
  obtain ⟨o, f', hf, -, hres, -⟩ := Forest.choose_spec hsound.ready
  obtain ⟨rfl, rfl⟩ := Prod.mk.inj (Except.ok.inj (hf.symm.trans hchoose))
  obtain ⟨k, hscan⟩ := hres
  have hlabel := Forest.label_eq_some_iff.2 hl
  obtain rfl : l = k := Option.some.inj (hlabel.symm.trans hscan.label_eq)
  have hR := hsound.balances.toWithin
  have hi := hscan.sound.lt_numNodes hR hlabel
  have has : ∀ a ∈ as, ∃ j, x.search.residual.arcs.Leads a i j ∧ i ≠ j := by
    intro a ha
    have hmem : a ∈ as ++ bs := List.mem_append_left bs ha
    rw [← Except.ok.inj ((hR.arcs.around_eq i hi).symm.trans haround)] at hmem
    exact hR.arcs.mem_around.1 hmem
  obtain ⟨g', o, hok, hscan', -⟩ := Forest.growAll_spec hN hR x.search.reparent has hscan
  obtain ⟨rfl, -⟩ := Prod.mk.inj (Except.ok.inj (hok.symm.trans hgrow))
  exact ⟨hsound.balances, hscan'⟩

theorem Search.untouched_push {s' : Search} {b : Int} {p : Push} (h : s.push r b p = .ok s') :
    ∃ us, s.Untouched us s' := by
  cases p with
  | arc a => exact ⟨_, untouched_pushArc h⟩
  | step side u a => exact ⟨_, untouched_pushStep h⟩
  | root side u => exact ⟨_, untouched_pushRoot h⟩

theorem Search.untouched_pushes {s' : Search} {b : Int} {as : List Push}
    (h : as.foldlM (Search.push r b) s = .ok s') : ∃ us, s.Untouched us s' := by
  induction as generalizing s with
  | nil =>
    obtain rfl : s = s' := Except.ok.inj h
    exact ⟨_, .refl s⟩
  | cons p as ih =>
    rw [List.foldlM_cons] at h
    obtain ⟨s₁, h₁, h⟩ := bind_eq_ok_iff.1 h
    obtain ⟨us, hus⟩ := untouched_push h₁
    obtain ⟨vs, hvs⟩ := ih h
    exact ⟨_, hus.trans hvs⟩

/-- **Between two pushes** of an augmentation, some nodes may have lost their parents. -/
theorem AtPush.untouched (hr : r.Keeps m) (hN : N.WellFormed) (hm : N.Fits m)
    (h : AtPush r N i s) :
    ∃ (s₀ : Search) (mt : Meeting) (us : List Nat), s₀.Met N (some i) mt ∧ s₀.Untouched us s := by
  obtain ⟨mt, s₀, p, b, as, bs, hmeet, -, -, -, hpush⟩ := h
  obtain ⟨us, hus⟩ := Search.untouched_pushes hpush
  exact ⟨s₀, mt, us, hmeet.met hr hN hm, hus⟩

/-- **Between two arcs** around a node that leaves its tree, only its children hang on a free
node. -/
theorem AtLeaving.releasing {side : Segment} (hr : r.Keeps m) (hN : N.WellFormed) (hm : N.Fits m)
    (h : AtLeaving r N i s u side bs g) :
    s.residual.Balances N ∧ Forest.Releasing s.residual (some i) u side bs bs g := by
  obtain ⟨f, o, l, as, h, hrepair, hnext, hl, rfl, haround, hconsider, hrelease⟩ := h
  rw [← List.append_nil (as ++ bs)] at haround
  obtain ⟨hb, hremeasures, hseek⟩ :=
    hrepair.considering hr hN hm hnext hl haround hconsider
  rw [List.append_nil] at haround
  have hR := hb.toWithin
  obtain ⟨k, hk, hside, -⟩ := hremeasures.exists_label (Forest.label_eq_some_iff.2 hl)
  have hu := hseek.sound.lt_numNodes hR hk
  have hmem : ∀ a, a ∈ as ++ bs ↔ ∃ j, s.residual.arcs.Leads a u j ∧ u ≠ j := by
    intro a
    rw [← Except.ok.inj ((hR.arcs.around_eq u hu).symm.trans haround)]
    exact hR.arcs.mem_around
  have hfree := hseek.free hk hmem
  rw [show k.side = l.side from hside] at hfree
  obtain ⟨g', hok', hrel, -⟩ := Forest.releaseAll_spec hN hR
    (fun a ha => ((hmem a).1 (List.mem_append_left bs ha)).imp fun _ hj => hj.1) hfree
  obtain rfl := Except.ok.inj (hok'.symm.trans hrelease)
  exact ⟨hb, hrel⟩

theorem AtRelease.releasing (hr : r.Keeps m) (hN : N.WellFormed) (hm : N.Fits m)
    (h : AtRelease r N i s u g) :
    ∃ side as, Forest.Releasing s.residual (some i) u side as as g := by
  obtain ⟨side, bs, hleaving⟩ := h
  exact ⟨side, bs, (hleaving.releasing hr hN hm).2⟩

end MinCut
