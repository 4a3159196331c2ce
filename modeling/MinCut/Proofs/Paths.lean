/-
# The path through a meeting

The two ways up from a meeting, the one to the source turned around, and the arc between the trees
make up a walk.  It repeats no node, since the ways are in different trees and parents look nearer
to their roots than their children.  So no arc of the walk is taken twice, and none is taken back.

Key facts:
* `Walk.append` and `Walk.reverse` : walks are put together and turned around;
* `Walk.nodup_arcs` and `Walk.sister_not_mem` : what a walk without repeated nodes does not repeat;
* `Met.exists_connects` : the path through a meeting.
-/
import MinCut.Proofs.Turns
import MinCut.Search.Path

namespace MinCut

namespace ArcTable

variable {t t' : ArcTable} {a : ArcRef} {as bs : List ArcRef} {u v : Nat} {us vs : List Nat}

/-! ## Walks -/

theorem leads_of_head (hu : t.head a.sister = .ok u) (hv : t.head a = .ok v) : t.Leads a u v := by
  obtain ⟨p, hp, hv⟩ := head_eq_ok_iff.1 hv
  obtain ⟨q, hq, hu⟩ := head_eq_ok_iff.1 hu
  rw [ArcRef.pair_sister, hp] at hq
  cases hq
  exact ⟨p, hp, hu, hv⟩

theorem Walk.of_leads (h : t.Leads a u v) (hw : t.Walk as (v :: vs)) :
    t.Walk (a :: as) (u :: v :: vs) :=
  .arc h.sister.head_eq h.head_eq hw

/-- A walk goes on with one that begins at its last node. -/
theorem Walk.append (h : t.Walk as (us ++ [u])) (h' : t.Walk bs (u :: vs)) :
    t.Walk (as ++ bs) (us ++ u :: vs) := by
  induction us generalizing as with
  | nil =>
    cases h
    exact h'
  | cons w us ih =>
    cases us with
    | nil =>
      cases h with
      | arc hu hv hw =>
        cases hw
        exact .arc hu hv h'
    | cons y us =>
      cases h with
      | arc hu hv hw => exact .arc hu hv (ih hw)

/-- **A walk turned around** takes the sisters of its arcs. -/
theorem Walk.reverse (h : t.Walk as us) : t.Walk (as.map ArcRef.sister).reverse us.reverse := by
  induction h with
  | node u => exact .node u
  | arc hu hv _ ih =>
    rename_i a u v as vs _
    have hback : t.Walk [a.sister] [v, u] := .of_leads (leads_of_head hu hv).sister (.node u)
    rw [List.reverse_cons] at ih
    simpa using ih.append hback

/-- Every arc of a walk leads from one of its nodes to a later one. -/
theorem Walk.exists_leads (h : t.Walk as us) :
    ∀ a ∈ as, ∃ u v, t.Leads a u v ∧ u ∈ us ∧ v ∈ us.tail := by
  induction h with
  | node u => simp
  | arc hu hv hw ih =>
    intro b hb
    rcases List.mem_cons.1 hb with rfl | hb
    · exact ⟨_, _, leads_of_head hu hv, List.mem_cons_self, List.mem_cons_self⟩
    · obtain ⟨y, z, hyz, hy, hz⟩ := ih b hb
      exact ⟨y, z, hyz, List.mem_cons_of_mem _ hy, List.mem_of_mem_tail hz⟩

/-- **A walk that repeats no node repeats no arc.** -/
theorem Walk.nodup_arcs (h : t.Walk as us) (hn : us.Nodup) : as.Nodup := by
  induction h with
  | node u => exact List.nodup_nil
  | arc hu hv hw ih =>
    obtain ⟨hnot, hn⟩ := List.nodup_cons.1 hn
    refine List.nodup_cons.2 ⟨fun hmem => ?_, ih hn⟩
    -- the arc leaves the first node, which no later arc does
    obtain ⟨y, z, hyz, hy, -⟩ := hw.exists_leads _ hmem
    obtain ⟨rfl, -⟩ := hyz.unique (leads_of_head hu hv)
    exact hnot hy

/-- **A walk that repeats no node takes no arc back.** -/
theorem Walk.sister_not_mem (h : t.Walk as us) (hn : us.Nodup) : ∀ a ∈ as, a.sister ∉ as := by
  induction h with
  | node u => simp
  | arc hu hv hw ih =>
    rename_i a u v as vs
    obtain ⟨hnot, hn⟩ := List.nodup_cons.1 hn
    -- a way back to the first node would enter it once more
    have hback : a.sister ∉ as := by
      intro hmem
      obtain ⟨y, z, hyz, -, hz⟩ := hw.exists_leads _ hmem
      obtain ⟨-, rfl⟩ := hyz.unique (leads_of_head hu hv).sister
      exact hnot (List.mem_of_mem_tail hz)
    intro b hb hmem
    rcases List.mem_cons.1 hb with rfl | hb <;> rcases List.mem_cons.1 hmem with heq | hmem
    · exact b.sister_ne heq
    · exact hback hmem
    · rw [← heq, ArcRef.sister_sister] at hback
      exact hback hb
    · exact ih hn b hb hmem

end ArcTable

/-! ## Ways up as walks -/

/-- In the source tree the flow takes the arcs to the parents back. -/
theorem Ascent.carriers_source (p : Ascent) :
    p.carriers .source = (p.carriers .sink).map ArcRef.sister := by
  simp [carriers, treeArc]

namespace Forest

variable {R : Residual} {t : ArcTable} {f : Forest} {u v : Nat} {l : Label} {p : Ascent}
variable {side : Segment} {mt : Meeting}

/-- The first node on a way up is where it begins. -/
theorem Climbs.nodes_eq (h : Climbs t f u p) : ∃ us, p.nodes = u :: us := by
  cases h with
  | top => exact ⟨[], rfl⟩
  | step => exact ⟨_, rfl⟩

/-- A way up is a walk along the arcs to the parents. -/
theorem Climbs.walk (h : Climbs t f u p) : t.Walk (p.carriers .sink) p.nodes := by
  induction h with
  | top _ _ => exact .node _
  | step _ _ ha hclimb ih =>
    obtain ⟨vs, hvs⟩ := hclimb.nodes_eq
    rw [hvs] at ih
    have hwalk := ArcTable.Walk.of_leads ha ih
    rwa [← hvs] at hwalk

/-- The limbs of a meeting make up its path. -/
theorem Joins.connects {q : Ascent} (hj : f.Joins R mt)
    (hp : Limb R f .source mt.sourceEnd p) (hq : Limb R f .sink mt.sinkEnd q) :
    f.Connects R.arcs mt ⟨p, mt.middle, q⟩ := by
  have hside : ∀ {side u} {a : Ascent}, Limb R f side u a → ∀ w ∈ a.nodes,
      ∃ l, f.labels[w]? = some (some l) ∧ l.side = side := by
    intro side u a ha w hw
    obtain ⟨k, hk⟩ := ha.climbs.exists_label w hw
    exact ⟨k, getElem?_labels hk, ha.side_eq w hw k hk⟩
  have hchain : ∀ {side u} {a : Ascent}, Limb R f side u a → f.Chain R.arcs u a.nodes := by
    intro side u a ha
    obtain ⟨k, hk, hroot⟩ := ha.exists_root
    exact ha.climbs.chain hk hroot
  refine ⟨rfl, hchain hp, hchain hq, hside hp, hside hq, ?_, ?_, ?_⟩
  · intro s hs
    rcases List.mem_append.1 hs with hs | hs
    · obtain ⟨k, hk, hv⟩ := hp.climbs.exists_step s hs
      exact ⟨k, getElem?_labels hk, hv⟩
    · obtain ⟨k, hk, hv⟩ := hq.climbs.exists_step s hs
      exact ⟨k, getElem?_labels hk, hv⟩
  · obtain ⟨us, hus⟩ := hp.climbs.nodes_eq
    obtain ⟨vs, hvs⟩ := hq.climbs.nodes_eq
    have hdown : R.arcs.Walk (p.carriers .source).reverse (us.reverse ++ [mt.sourceEnd]) := by
      have hup := hp.climbs.walk.reverse
      rwa [← Ascent.carriers_source, hus, List.reverse_cons] at hup
    have hup := hq.climbs.walk
    rw [hvs] at hup
    have hwalk := hdown.append (.of_leads hj.leads hup)
    simpa only [Path.arcs, Path.nodes, hus, hvs, List.reverse_cons, List.append_assoc,
      List.singleton_append] using hwalk
  · refine List.nodup_append.2 ⟨List.nodup_reverse.2 hp.nodup, hq.nodup, ?_⟩
    rintro w hw w' hw' rfl
    exact (hp.disjoint hq).1 w hw' (List.mem_reverse.1 hw)

end Forest

/-- **Before an augmentation** the ways up from both ends of the meeting can be walked, and they
make up a path. -/
theorem Search.Met.exists_connects {N : Network} {held : Option Nat} {mt : Meeting} {s : Search}
    (h : s.Met N held mt) :
    ∃ p, s.forest.path s.residual.arcs mt = .ok p ∧
      s.forest.Connects s.residual.arcs mt p ∧
      Forest.Limb s.residual s.forest .source mt.sourceEnd p.source ∧
        Forest.Limb s.residual s.forest .sink mt.sinkEnd p.sink := by
  obtain ⟨l, hl, hl'⟩ := h.joins.source_label
  obtain ⟨k, hk, hk'⟩ := h.joins.sink_label
  obtain ⟨p, hp, hsource⟩ := Forest.exists_limb h.sound h.ordered h.settled hl
  obtain ⟨q, hq, hsink⟩ := Forest.exists_limb h.sound h.ordered h.settled hk
  rw [hl'] at hsource
  rw [hk'] at hsink
  refine ⟨⟨p, mt.middle, q⟩, ?_, h.joins.connects hsource hsink, hsource, hsink⟩
  simp only [Forest.path, hp.eq, hq.eq, bind, Except.bind, pure, Except.pure]

end MinCut
