/-
# Search forests

The search for augmenting paths grows two trees: the source tree, whose nodes the source
can still reach, and the sink tree, whose nodes can still reach the sink.  A node in a
tree has a label: its tree, its parent, and its depth as last measured together with the
time of that measurement.  A node without a label is free.

A root is bound to its terminal by its excess.  Any other node hangs on a parent by the
arc that leads there, or has lost its parent and waits for another one.  The source tree
carries flow from a parent down to its child and the sink tree from a child up to its
parent, so the tree edge has the residual capacity of `treeArc`.

Main facts: `labels_setLabel`, and `Label.isAttached_iff`.
-/
import MinCut.ActiveQueue
import MinCut.OrphanList
import MinCut.Residual

namespace MinCut

/-! ## Labels -/

/-- What a node of a tree hangs on. -/
inductive Parent where
  /-- The terminal itself. -/
  | root
  /-- The node that the arc `a` enters; the arc leaves the child. -/
  | via (a : ArcRef)
  /-- Nothing: the node lost its parent and waits for another one. -/
  | orphan
  deriving DecidableEq

/-- What the forest knows of a node in one of its trees. -/
structure Label where
  /-- The tree of the node. -/
  side : Segment
  parent : Parent
  /-- When the depth was measured. -/
  stamp : Nat
  /-- The number of nodes from this one up to its root, as last measured. -/
  depth : Nat
  deriving DecidableEq

namespace Label

/-- Whether the node hangs on something. -/
def isAttached (l : Label) : Bool :=
  match l.parent with
  | .root => true
  | .via _ => true
  | .orphan => false

/-- The label of a root at the start of a search. -/
def root (side : Segment) : Label := ⟨side, .root, 0, 1⟩

/-- The label of a node hung below a node labelled `l` by the arc `a`. -/
def child (l : Label) (a : ArcRef) : Label := ⟨l.side, .via a, l.stamp, l.depth + 1⟩

/-- The label without its parent. -/
def orphaned (l : Label) : Label := { l with parent := .orphan }

/-- The label after a measurement. -/
def measured (l : Label) (stamp depth : Nat) : Label := { l with stamp, depth }

/-- A node hangs on something unless it is an orphan. -/
theorem isAttached_iff (l : Label) : l.isAttached = true ↔ l.parent ≠ .orphan := by
  unfold isAttached
  cases l.parent <;> simp

end Label

/-! ## Tree edges -/

/-- The arc that carries flow along a tree edge, given the arc from the child to the
parent: downwards in the source tree and upwards in the sink tree. -/
def treeArc (side : Segment) (a : ArcRef) : ArcRef :=
  match side with
  | .source => a.sister
  | .sink => a

/-- The residual capacity of a tree edge, given the arc from the child to the parent. -/
def ArcTable.treeResidual (t : ArcTable) (side : Segment) (a : ArcRef) : Except Fault Int :=
  t.residual (treeArc side a)

/-! ## Forests -/

/-- The two trees, with the nodes that wait to grow and those that wait for a parent. -/
structure Forest where
  /-- The label of each node; a node without one is free. -/
  labels : Array (Option Label)
  active : ActiveQueue
  orphans : OrphanList
  /-- The time, which advances with each node that was taken up to grow. -/
  clock : Nat
  deriving DecidableEq

namespace Forest

/-- Gives the node `u` a label, or frees it. -/
def setLabel (f : Forest) (u : Nat) (l : Option Label) : Forest :=
  { f with labels := f.labels.setIfInBounds u l }

/-- Queues the node `u` to grow. -/
def activate (f : Forest) (u : Nat) : Except Fault Forest := do
  return { f with active := ← f.active.push u }

/-- Whether the node `u` is in a tree and hangs on something. -/
def isAttached (f : Forest) (u : Nat) : Except Fault Bool := do
  match ← fetch f.labels u with
  | some l => return l.isAttached
  | none => return false

/-- Takes the parent from a node whose tree edge or terminal an augmentation saturated. -/
def orphan (f : Forest) (u : Nat) : Except Fault Forest := do
  match ← fetch f.labels u with
  | none => .error (.brokenPath u)
  | some l =>
    return { f with
      labels := f.labels.setIfInBounds u (some l.orphaned)
      orphans := f.orphans.pushSaturated u }

/-- Takes the parent from a node labelled `l` that hung on a node which left its tree. -/
def orphanBelow (f : Forest) (u : Nat) (l : Label) : Forest :=
  { f with
    labels := f.labels.setIfInBounds u (some l.orphaned)
    orphans := f.orphans.pushCascade u }

/-! ## The forest at the start of a search -/

/-- The label at the start of a search of a node with the given excess. -/
def rootLabel (excess : Int) : Option Label :=
  if excess = 0 then none
  else if excess < 0 then some (.root .sink)
  else some (.root .source)

/-- The roots are queued in ascending order. -/
def activateRoots (labels : Array (Option Label)) : Except Fault ActiveQueue :=
  (List.range labels.size).foldlM
    (fun q u =>
      match labels[u]? with
      | some (some _) => q.push u
      | _ => .ok q)
    (ActiveQueue.ofSize labels.size)

/-- The forest of `n` free nodes, before any search. -/
def unsearched (n : Nat) : Forest := ⟨Array.replicate n none, .empty, .empty, 0⟩

/-- Every node with an excess is a root and active, and all others are free. -/
def ofExcess (excess : Array Int) : Except Fault Forest := do
  let labels := excess.map rootLabel
  return { labels, active := ← activateRoots labels, orphans := .empty, clock := 0 }

/-! ## Small facts -/

theorem labels_setLabel (f : Forest) (u v : Nat) (l : Option Label) (h : u < f.labels.size) :
    (f.setLabel u l).labels[v]? = if u = v then some l else f.labels[v]? := by
  simp [setLabel, Array.getElem?_setIfInBounds, h]

@[simp] theorem size_setLabel (f : Forest) (u : Nat) (l : Option Label) :
    (f.setLabel u l).labels.size = f.labels.size := by
  simp [setLabel]

end Forest

end MinCut
