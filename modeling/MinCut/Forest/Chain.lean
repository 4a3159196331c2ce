/-
# Chains of parents

The chain of a node lists the node, its parent, the parent of that, and so on up to a
root.  Its length is the exact depth of the node, whatever depth was measured last.  The
chain is live if it can carry flow: all its nodes are in one tree, and each hangs on the
next by a tree edge with residual capacity.

Following parents need not end at a root, for an orphan has none.  So the nodes at or above
a node are those that `HangsOn` leads to, whether the node has a chain or not.

Main fact: `Chain.unique`, so that a node has at most one chain and one exact depth.
-/
import Mathlib.Logic.Relation
import MinCut.Forest.Basic

namespace MinCut

namespace Forest

/-- Following the parents of a node up to a root visits the nodes of the list. -/
inductive Chain (t : ArcTable) (f : Forest) : Nat → List Nat → Prop where
  | root {u : Nat} {l : Label} :
    f.labels[u]? = some (some l) → l.parent = .root → Chain t f u [u]
  | via {u v : Nat} {l : Label} {a : ArcRef} {vs : List Nat} :
    f.labels[u]? = some (some l) → l.parent = .via a → t.head a = .ok v → Chain t f v vs →
    Chain t f u (u :: vs)

/-- The parent of the node `u` is the node `v`. -/
def HangsOn (t : ArcTable) (f : Forest) (u v : Nat) : Prop :=
  ∃ (l : Label) (a : ArcRef), f.labels[u]? = some (some l) ∧ l.parent = .via a ∧ t.head a = .ok v

/-- The node `u` is in a tree and waits for a parent. -/
def IsOrphan (f : Forest) (u : Nat) : Prop :=
  ∃ l : Label, f.labels[u]? = some (some l) ∧ l.parent = .orphan

/-- The node `w` is `u` or lies above it: following the parents of `u` leads to it. -/
def AtOrAbove (t : ArcTable) (f : Forest) (u w : Nat) : Prop :=
  Relation.ReflTransGen (f.HangsOn t) u w

/-- Following the parents of a node up to a root visits the nodes of the list, which are all in
the tree `side`, along tree edges with residual capacity. -/
inductive LiveChain (R : Residual) (f : Forest) (side : Segment) : Nat → List Nat → Prop where
  | root {u : Nat} {l : Label} :
    f.labels[u]? = some (some l) → l.side = side → l.parent = .root → LiveChain R f side u [u]
  | via {u v : Nat} {l : Label} {a : ArcRef} {c : Int} {vs : List Nat} :
    f.labels[u]? = some (some l) → l.side = side → l.parent = .via a → R.arcs.head a = .ok v →
    R.arcs.treeResidual side a = .ok c → 0 < c → LiveChain R f side v vs →
    LiveChain R f side u (u :: vs)

/-- A chain is that of a root, or it goes on with the chain of the parent. -/
theorem Chain.parent_cases {t : ArcTable} {f : Forest} {u : Nat} {vs : List Nat} {l : Label}
    (h : Chain t f u vs) (hl : f.labels[u]? = some (some l)) :
    l.parent = .root ∧ vs = [u] ∨
      ∃ a v ws, l.parent = .via a ∧ t.head a = .ok v ∧ vs = u :: ws ∧ Chain t f v ws := by
  cases h with
  | root hl' hp =>
    rw [hl] at hl'
    cases hl'
    exact Or.inl ⟨hp, rfl⟩
  | via hl' hp ha hc =>
    rw [hl] at hl'
    cases hl'
    exact Or.inr ⟨_, _, _, hp, ha, rfl, hc⟩

/-- A node has at most one chain. -/
theorem Chain.unique {t : ArcTable} {f : Forest} {u : Nat} {vs ws : List Nat}
    (hv : Chain t f u vs) (hw : Chain t f u ws) : vs = ws := by
  induction hv generalizing ws with
  | root hl hp =>
    rcases hw.parent_cases hl with ⟨-, rfl⟩ | ⟨a, v, ws, hp', -⟩
    · rfl
    · rw [hp] at hp'
      cases hp'
  | via hl hp ha _ ih =>
    rcases hw.parent_cases hl with ⟨hp', -⟩ | ⟨a, v, ws, hp', ha', rfl, hc⟩
    · rw [hp] at hp'
      cases hp'
    · rw [hp] at hp'
      cases hp'
      rw [ha] at ha'
      cases ha'
      rw [ih hc]

end Forest

end MinCut
