/-
# Moments of an adopt phase

An adopt phase settles one orphan after the other.  Each of them goes through the arcs around it,
and at every arc that might offer a place the way up from the other end is measured and the depths
are written down, node by node.  If no arc offers a place, the orphan leaves its tree and goes
through its arcs once more.  A moment of the phase is a state between two of these steps, and
`Moment.next` says what the next step makes of it.

What an orphan is offered is told from the chains of parents alone, whatever was measured before.
-/
import MinCut.Forest.Chain
import MinCut.Search.InPlace

namespace MinCut

namespace Forest

/-! ## What an orphan is offered -/

/-- The arc `a` offers an orphan of the tree `side` a place below a node of depth `d`: as a tree
edge it would have residual capacity, and it leads to a node of the tree whose parents lead up to
a root. -/
def Offers (t : ArcTable) (f : Forest) (side : Segment) (a : ArcRef) (d : Nat) : Prop :=
  ∃ j m c vs, t.treeResidual side a = .ok c ∧ 0 < c ∧ t.head a = .ok j ∧
    f.labels[j]? = some (some m) ∧ m.side = side ∧ f.Chain t j vs ∧ vs.length = d

/-- The candidate is the nearest place that a list of arcs offers, the first of several equally
near ones, or there is no candidate and no place. -/
def Nearest (t : ArcTable) (f : Forest) (side : Segment) (as : List ArcRef) :
    Option Candidate → Prop
  | none => ∀ a ∈ as, ∀ d, ¬ f.Offers t side a d
  | some c => ∃ before after, as = before ++ c.arc :: after ∧ f.Offers t side c.arc c.depth ∧
      (∀ a ∈ before, ∀ d, f.Offers t side a d → c.depth < d) ∧
        ∀ a ∈ after, ∀ d, f.Offers t side a d → c.depth ≤ d

/-- An orphan of the tree `side` that goes through the arcs `as` considers exactly those that offer
a place, each at the depth of its place, and the others change nothing. -/
def Considers (t : ArcTable) (f : Forest) (side : Segment) (as : List ArcRef) : Prop :=
  ∀ before a after, as = before ++ a :: after → ∃ g best g' best',
    considerAll t side f none before = .ok (g, best) ∧
      consider t side g best a = .ok (g', best') ∧
        ((∃ d, f.Offers t side a d ∧ best' = nearer best ⟨a, d⟩) ∨
          (∀ d, ¬ f.Offers t side a d) ∧ g' = g ∧ best' = best)

/-! ## What is measured -/

/-- Every node measured at the present time has a chain of parents up to a root, and its depth is
the number of nodes on it. -/
def Truthful (t : ArcTable) (f : Forest) : Prop :=
  ∀ (u : Nat) (l : Label), f.labels[u]? = some (some l) → l.stamp = f.clock →
    ∃ vs, f.Chain t u vs ∧ vs.length = l.depth

/-- Every node measured at the present time keeps its label: it is not orphaned, it does not leave
its tree, it hangs where it did, and it is not measured again. -/
structure KeepsMeasured (f g : Forest) : Prop where
  clock_eq : g.clock = f.clock
  label_eq : ∀ (u : Nat) (l : Label), f.labels[u]? = some (some l) → l.stamp = f.clock →
    g.labels[u]? = some (some l)

/-! ## Moments -/

/-- A moment of an adopt phase. -/
inductive Moment where
  /-- The next orphan is about to be taken from the list. -/
  | between (f : Forest)
  /-- The orphan `u` of the tree `side` looks for a parent; the arcs `as` are still ahead. -/
  | seeking (f : Forest) (u : Nat) (side : Segment) (best : Option Candidate) (as : List ArcRef)
  /-- It has measured a way, on which the depth `d` is to be written to the node `v` next. -/
  | marking (f : Forest) (u : Nat) (side : Segment) (best : Option Candidate) (as : List ArcRef)
    (d v : Nat)
  /-- The node `u` leaves the tree `side`; the arcs `as` are still ahead. -/
  | leaving (f : Forest) (u : Nat) (side : Segment) (as : List ArcRef)

namespace Moment

/-- The forest at a moment. -/
def forest : Moment → Forest
  | between f => f
  | seeking f _ _ _ _ => f
  | marking f _ _ _ _ _ _ => f
  | leaving f _ _ _ => f

/-- Taking the next orphan from the list. -/
def take (t : ArcTable) (f : Forest) : Except Fault (Option Moment) := do
  match f.orphans.next? with
  | none => return none
  | some (u, orphans) =>
    match ← fetch f.labels u with
    | none => .error (.corruptForest u)
    | some l =>
      let arcs ← t.around u
      return some (.seeking { f with orphans } u l.side none arcs)

/-- Looking along the arc `a`; the way up from the node that it enters is measured at once, and a
root at its end is stamped. -/
def look (t : ArcTable) (f : Forest) (u : Nat) (side : Segment) (best : Option Candidate)
    (a : ArcRef) (as : List ArcRef) : Except Fault Moment := do
  let capacity ← t.treeResidual side a
  if capacity = 0 then
    return .seeking f u side best as
  else
    let j ← t.head a
    match ← fetch f.labels j with
    | none => return .seeking f u side best as
    | some m =>
      if m.side ≠ side then
        return .seeking f u side best as
      else
        match ← measure t f f.labels.size 0 j with
        | (none, f) => return .seeking f u side best as
        | (some d, f) => return .marking f u side (nearer best ⟨a, d⟩) as d j

/-- Writing the depth `d` to the node `v`, if it was not measured yet. -/
def mark (t : ArcTable) (f : Forest) (u : Nat) (side : Segment) (best : Option Candidate)
    (as : List ArcRef) (d v : Nat) : Except Fault Moment := do
  match ← fetch f.labels v with
  | none => .error (.unmeasured v)
  | some l =>
    if l.stamp = f.clock then
      return .seeking f u side best as
    else
      match d with
      | 0 => .error (.unmeasured v)
      | d + 1 =>
        let f := f.setLabel v (some (l.measured f.clock (d + 1)))
        match l.parent with
        | .root => .error (.unmeasured v)
        | .orphan => .error (.unmeasured v)
        | .via a =>
          let w ← t.head a
          return .marking f u side best as d w

/-- Hanging the orphan on the best candidate, or letting it leave its tree. -/
def conclude (t : ArcTable) (f : Forest) (u : Nat) (side : Segment) :
    Option Candidate → Except Fault Moment
  | some c => .ok (.between (f.setLabel u (some ⟨side, .via c.arc, f.clock, c.depth + 1⟩)))
  | none => do
    let arcs ← t.around u
    return .leaving (f.setLabel u none) u side arcs

/-- The moment after the next step, or nothing if the phase is over. -/
def next (t : ArcTable) : Moment → Except Fault (Option Moment)
  | between f => take t f
  | seeking f u side best [] => do return some (← conclude t f u side best)
  | seeking f u side best (a :: as) => do return some (← look t f u side best a as)
  | marking f u side best as d v => do return some (← mark t f u side best as d v)
  | leaving f _ _ [] => .ok (some (.between f))
  | leaving f u side (a :: as) => do return some (.leaving (← releaseAlong t side u f a) u side as)

/-- A number of steps leads from the one moment to the other. -/
def Leads (t : ArcTable) : Moment → Moment → Prop :=
  Relation.ReflTransGen fun M M' => M.next t = .ok (some M')

end Moment

end Forest

end MinCut
