/-
# Auditing a forest

A forest is sound for a residual network if no node waits for a parent, every root is
bound to the terminal of its tree, and every other node of a tree hangs on a node of the
same tree by an edge with residual capacity.  The audit checks this node by node.
-/
import MinCut.Forest.Basic

namespace MinCut

namespace Forest

/-- Checks the label `l` of the node `u`. -/
def auditLabel (R : Residual) (f : Forest) (u : Nat) (l : Label) : Except Fault Unit := do
  match l.parent with
  | .orphan => .error (.corruptForest u)
  | .root =>
    let excess ← fetch R.excess u
    if (rootLabel excess).map Label.side = some l.side then
      return ()
    else
      .error (.corruptForest u)
  | .via a =>
    let p ← R.arcs.head a
    match ← fetch f.labels p with
    | none => .error (.corruptForest u)
    | some m =>
      let capacity ← R.arcs.treeResidual l.side a
      if m.isAttached ∧ m.side = l.side ∧ 0 < capacity then
        return ()
      else
        .error (.corruptForest u)

/-- Checks the labels of a list of nodes, numbered from `u` on. -/
def auditFrom (R : Residual) (f : Forest) (u : Nat) : List (Option Label) → Except Fault Unit
  | [] => .ok ()
  | none :: ls => auditFrom R f (u + 1) ls
  | some l :: ls => do
    auditLabel R f u l
    auditFrom R f (u + 1) ls

/-- Checks every label of the forest. -/
def audit (R : Residual) (f : Forest) : Except Fault Unit :=
  auditFrom R f 0 f.labels.toList

end Forest

end MinCut
