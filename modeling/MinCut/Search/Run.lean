/-
# Runs of a search

A run takes up one node after the other and lets it grow.  If the trees meet, the path is
augmented and the forest repaired, and the node is held so that it goes on growing.  The
run is finished when no node is left to take up; what is then in the source tree is the
source side of a minimum cut.

One passage through the loop is `Run.turn`, and `Run.Reaches` relates the states at the
head of the loop.  A turn without augmentation uses up a waiting node or claims free
nodes, and an augmentation uses up some of the supply, so `Search.patience` bounds the
number of turns.
-/
import MinCut.Forest.Adoption
import MinCut.Forest.Audit
import MinCut.Forest.Selection
import MinCut.Search.Augment

namespace MinCut

/-- A search at the head of its loop. -/
structure Run where
  search : Search
  /-- The node that stopped growing at a meeting of the trees. -/
  held : Option Nat
  deriving DecidableEq

/-- What one passage through the loop leads to. -/
inductive Turn where
  /-- No node is left to take up. -/
  | finished (s : Search)
  /-- The loop goes on, perhaps after an augmentation. -/
  | next (r : Run) (a : Option Augmentation)
  deriving DecidableEq

namespace Search

/-- Settles the orphans that an augmentation left behind. -/
def repair (s : Search) : Except Fault Search := do
  let (forest, count) ← s.forest.adopt s.residual.arcs
  return { s with forest, adoptions := s.adoptions + count }

/-- Augments the path through a meeting that the node `i` found, and repairs the forest. -/
def meet (r : Register) (s : Search) (i : Nat) (m : Meeting) :
    Except Fault (Run × Augmentation) := do
  let forest ← s.forest.mark i true
  let (s, a) ← augment r { s with forest } m
  let s ← s.repair
  return (⟨s, some i⟩, a)

end Search

namespace Run

/-- One passage through the loop. -/
def turn (r : Register) (x : Run) : Except Fault Turn := do
  let s := x.search
  let (chosen, forest) ← s.forest.choose x.held
  match chosen with
  | none => return .finished { s with forest }
  | some i =>
    let (forest, meeting) ← forest.grow s.residual.arcs s.reparent i
    let s := { s with forest }
    match meeting with
    | none => return .next ⟨s, none⟩ none
    | some m =>
      let (x, a) ← s.meet r i m
      return .next x (some a)

/-- Passes through the loop until it is finished, and lists the augmentations. -/
def finish (r : Register) (x : Run) (fuel : Nat) : Except Fault (Search × List Augmentation) := do
  match ← x.turn r with
  | .finished s => return (s, [])
  | .next y a =>
    match fuel with
    | 0 => .error .endless
    | fuel + 1 =>
      let (s, as) ← finish r y fuel
      return (s, a.toList ++ as)

/-- The state `y` stands at the head of the loop after some turns from `x`. -/
inductive Reaches (r : Register) (x : Run) : Run → Prop where
  | refl : Reaches r x x
  | step {y z : Run} {a : Option Augmentation} :
    Reaches r x y → y.turn r = .ok (.next z a) → Reaches r x z

end Run

namespace Search

/-- More turns than a run from a freshly planted forest can take. -/
def patience (s : Search) : Nat := (s.supply + 1) * (2 * s.residual.excess.size + 2)

/-- Searches for augmenting paths until there is none, and lists the augmentations. -/
def solve (r : Register) (s : Search) : Except Fault (Search × List Augmentation) := do
  let s ← s.restart
  let (s, as) ← Run.finish r ⟨s, none⟩ s.patience
  s.forest.audit s.residual
  return (s, as)

end Search

end MinCut
