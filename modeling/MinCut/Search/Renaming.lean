/-
# Searches under other numbers of edges

A search refers to an arc by the number of its edge.  If the same edges have other numbers, every
reference has to be renamed: those in the table, the parents in the forest, and the middle of a
meeting and of a path.  The table may list further edges, as long as it lists no arc of theirs
around any node.
-/
import Mathlib.Logic.Function.Defs
import MinCut.Paired
import MinCut.Search.Run

namespace MinCut

variable (ρ : Nat → Nat)

/-! ## Renamed references -/

/-- The reference to the same arc when the edge `k` has the number `ρ k`. -/
def ArcRef.rename (a : ArcRef) : ArcRef := { a with pair := ρ a.pair }

/-- The parent of the same node. -/
def Parent.rename : Parent → Parent
  | root => root
  | via a => via (a.rename ρ)
  | orphan => orphan

/-- The label of the same node. -/
def Label.rename (l : Label) : Label := { l with parent := l.parent.rename ρ }

/-- The forest with all arcs to parents renamed. -/
def Forest.rename (f : Forest) : Forest :=
  { f with labels := f.labels.map (Option.map (Label.rename ρ)) }

/-- The meeting of the same nodes. -/
def Meeting.rename (m : Meeting) : Meeting := { m with middle := m.middle.rename ρ }

/-- The candidate for the same parent. -/
def Forest.Candidate.rename (c : Candidate) : Candidate := { c with arc := c.arc.rename ρ }

/-- The same way up. -/
def Ascent.rename (p : Ascent) : Ascent :=
  { p with steps := p.steps.map fun s => (s.1, s.2.rename ρ) }

/-- The same path. -/
def Path.rename (p : Path) : Path := ⟨p.source.rename ρ, p.middle.rename ρ, p.sink.rename ρ⟩

/-! ## Tables and searches -/

/-- The table `t'` has every edge `k` of `t` under the number `ρ k`, with the same residual
capacities, and lists around each node the same arcs in the same order.  It may have further
edges. -/
structure ArcTable.Renames (t t' : ArcTable) : Prop where
  injective : Function.Injective ρ
  around : ∀ u, Paired (fun as as' => as' = as.map (ArcRef.rename ρ)) (t.around u) (t'.around u)
  getElem?_pairs : ∀ k, t'.pairs[ρ k]? = t.pairs[k]?

/-- The search `s'` is in the state of `s`, on a table with other numbers of edges. -/
structure Search.Renames (s s' : Search) : Prop where
  arcs : s.residual.arcs.Renames ρ s'.residual.arcs
  excess_eq : s'.residual.excess = s.residual.excess
  flow_eq : s'.residual.flow = s.residual.flow
  forest_eq : s'.forest = s.forest.rename ρ
  reparent_eq : s'.reparent = s.reparent
  augmentations_eq : s'.augmentations = s.augmentations
  adoptions_eq : s'.adoptions = s.adoptions

/-- The two runs are in the same state up to the numbers of the edges. -/
structure Run.Renames (x x' : Run) : Prop where
  search : x.search.Renames ρ x'.search
  held_eq : x'.held = x.held

end MinCut
