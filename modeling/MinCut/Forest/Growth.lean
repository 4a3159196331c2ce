/-
# Growing a tree

A node that is taken up looks at the arcs around it, in order.  Along an arc with residual
capacity in the direction of its tree it claims a free node for the tree.  If it finds a
node of the other tree, the two trees meet and the node stops at once.  If it finds a node
of its own tree that was measured no later but lies deeper, it may take that node over.

The scan of one arc is `growAlong` and the scan of a list of arcs is `growAll`, so that a
statement about every moment of a scan is one about lists of arcs.
-/
import MinCut.Forest.Basic

namespace MinCut

/-- An arc with residual capacity from a node of the source tree to one of the sink tree. -/
structure Meeting where
  /-- The node of the source tree. -/
  sourceEnd : Nat
  /-- The node of the sink tree. -/
  sinkEnd : Nat
  /-- The arc from the one to the other. -/
  middle : ArcRef
  deriving DecidableEq

/-- The meeting found by a node `i` of the tree `side` that looks along the arc `a` to `j`. -/
def Meeting.found (side : Segment) (i j : Nat) (a : ArcRef) : Meeting :=
  match side with
  | .source => ⟨i, j, a⟩
  | .sink => ⟨j, i, a.sister⟩

namespace Forest

/-- What a node `i` with label `l` does about the node `j` that the arc `a` enters. -/
def growTo (f : Forest) (reparent : Bool) (i : Nat) (l : Label) (a : ArcRef) (j : Nat) :
    Except Fault (Forest × Option Meeting) := do
  match ← fetch f.labels j with
  | none =>
    let f ← (f.setLabel j (some (l.child a.sister))).activate j
    return (f, none)
  | some m =>
    if m.side ≠ l.side then
      return (f, some (.found l.side i j a))
    else if reparent ∧ m.stamp ≤ l.stamp ∧ l.depth < m.depth then
      return (f.setLabel j (some (l.child a.sister)), none)
    else
      return (f, none)

/-- What a node `i` with label `l` does about the arc `a` around it. -/
def growAlong (t : ArcTable) (reparent : Bool) (i : Nat) (l : Label) (f : Forest) (a : ArcRef) :
    Except Fault (Forest × Option Meeting) := do
  let capacity ← t.treeResidual l.side a.sister
  if capacity = 0 then
    return (f, none)
  else
    let j ← t.head a
    f.growTo reparent i l a j

/-- The scan of a list of arcs, which ends at the first meeting. -/
def growAll (t : ArcTable) (reparent : Bool) (i : Nat) (l : Label) (f : Forest) :
    List ArcRef → Except Fault (Forest × Option Meeting)
  | [] => .ok (f, none)
  | a :: as => do
    match ← growAlong t reparent i l f a with
    | (f, some m) => return (f, some m)
    | (f, none) => growAll t reparent i l f as

/-- Lets the node `i` grow its tree, after which the time advances. -/
def grow (t : ArcTable) (reparent : Bool) (f : Forest) (i : Nat) :
    Except Fault (Forest × Option Meeting) := do
  match ← fetch f.labels i with
  | none => .error (.corruptForest i)
  | some l =>
    let arcs ← t.around i
    let (f, meeting) ← growAll t reparent i l f arcs
    return ({ f with clock := f.clock + 1 }, meeting)

end Forest

end MinCut
