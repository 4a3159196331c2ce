/-
# Augmenting paths

The way up from either end of a meeting follows the parents to a root.  Read in the direction of
the flow, the two ways and the arc between the trees make up a path from a root of the source tree
to a root of the sink tree.

What an augmentation does is told from this path alone: it takes the same amount from every arc of
the path and from its two roots, gives it to the sisters of the arcs and to the flow, and takes the
parent from each node whose bond on the path it uses up.
-/
import Mathlib.Order.Bounds.Defs
import MinCut.Forest.Chain
import MinCut.Search.Augment

namespace MinCut

/-! ## The path -/

/-- A list of arcs leads from node to node through a list of nodes. -/
inductive ArcTable.Walk (t : ArcTable) : List ArcRef → List Nat → Prop where
  | node (u : Nat) : Walk t [] [u]
  | arc {a : ArcRef} {u v : Nat} {as : List ArcRef} {vs : List Nat} :
    t.head a.sister = .ok u → t.head a = .ok v → Walk t as (v :: vs) →
    Walk t (a :: as) (u :: v :: vs)

/-- **The path through a meeting** goes through the chains of its two ends, one in either tree, by
the arcs to the parents of their nodes, and repeats no node. -/
structure Forest.Connects (t : ArcTable) (f : Forest) (m : Meeting) (p : Path) : Prop where
  middle_eq : p.middle = m.middle
  source_chain : f.Chain t m.sourceEnd p.source.nodes
  sink_chain : f.Chain t m.sinkEnd p.sink.nodes
  source_side : ∀ u ∈ p.source.nodes, ∃ l, f.labels[u]? = some (some l) ∧ l.side = .source
  sink_side : ∀ u ∈ p.sink.nodes, ∃ l, f.labels[u]? = some (some l) ∧ l.side = .sink
  parent_eq : ∀ q ∈ p.source.steps ++ p.sink.steps,
    ∃ l, f.labels[q.1]? = some (some l) ∧ l.parent = .via q.2
  walk : t.Walk p.arcs p.nodes
  nodup : p.nodes.Nodup

/-- **The bottleneck of a path** is the least of the residual capacities of its arcs, of what the
source can still send into its first node and of what its last node can still send into the sink. -/
def Residual.IsBottleneck (R : Residual) (p : Path) (b : Int) : Prop :=
  ∃ cs supply demand, p.arcs.mapM R.arcs.residual = .ok cs ∧
    R.excess[p.source.root]? = some supply ∧ R.excess[p.sink.root]? = some (-demand) ∧
      IsLeast {c | c ∈ cs ∨ c = supply ∨ c = demand} b

/-! ## What an augmentation does -/

namespace Search

/-- What binds the node `u` of a path to its parent or its terminal is used up. -/
def Severed (s : Search) (p : Path) (u : Nat) : Prop :=
  (∃ a, (u, a) ∈ p.source.steps ∧ s.residual.arcs.treeResidual .source a = .ok 0) ∨
    (∃ a, (u, a) ∈ p.sink.steps ∧ s.residual.arcs.treeResidual .sink a = .ok 0) ∨
      (u = p.source.root ∨ u = p.sink.root) ∧ s.residual.excess[u]? = some 0

/-- Some arc of the path or one of the terminal bonds of its roots is used up. -/
def Saturates (s : Search) (p : Path) : Prop :=
  (∃ a ∈ p.arcs, s.residual.arcs.residual a = .ok 0) ∨
    s.residual.excess[p.source.root]? = some 0 ∨ s.residual.excess[p.sink.root]? = some 0

/-- **A push of `b` along the path `p`** leads from the search `s` to the search `s'`: nothing but
what is told here has changed. -/
structure PushesAlong (p : Path) (b : Int) (s s' : Search) : Prop where
  head_eq : ∀ a, s'.residual.arcs.head a = s.residual.arcs.head a
  around_eq : ∀ u, s'.residual.arcs.around u = s.residual.arcs.around u
  residual_on : ∀ a ∈ p.arcs,
    s'.residual.arcs.residual a = (s.residual.arcs.residual a).map (· - b)
  residual_back : ∀ a ∈ p.arcs,
    s'.residual.arcs.residual a.sister = (s.residual.arcs.residual a.sister).map (· + b)
  residual_off : ∀ a, a ∉ p.arcs → a.sister ∉ p.arcs →
    s'.residual.arcs.residual a = s.residual.arcs.residual a
  excess_source : s'.residual.excess[p.source.root]? =
    (s.residual.excess[p.source.root]?).map (· - b)
  excess_sink : s'.residual.excess[p.sink.root]? = (s.residual.excess[p.sink.root]?).map (· + b)
  excess_off : ∀ u, u ≠ p.source.root → u ≠ p.sink.root →
    s'.residual.excess[u]? = s.residual.excess[u]?
  flow_eq : s'.residual.flow = s.residual.flow + b
  isOrphan_iff : ∀ u, s'.forest.IsOrphan u ↔ s'.Severed p u
  label_of_isOrphan : ∀ u, s'.forest.IsOrphan u →
    s'.forest.labels[u]? = (s.forest.labels[u]?).map (Option.map Label.orphaned)
  label_of_not_isOrphan : ∀ u, ¬ s'.forest.IsOrphan u →
    s'.forest.labels[u]? = s.forest.labels[u]?
  orphans_nodup : s'.forest.orphans.order.Nodup
  mem_orphans_iff : ∀ u, u ∈ s'.forest.orphans.order ↔ s'.forest.IsOrphan u
  active_eq : s'.forest.active = s.forest.active
  clock_eq : s'.forest.clock = s.forest.clock
  reparent_eq : s'.reparent = s.reparent
  augmentations_eq : s'.augmentations = s.augmentations + 1
  adoptions_eq : s'.adoptions = s.adoptions

end Search

end MinCut
