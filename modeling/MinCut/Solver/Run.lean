/-
# Solves of a solver

A solve plants the roots, passes through its loop until no node is left to take up, and checks the
trees that it ends with.  The bound `n` is on the number of steps of every walk and loop; a solve
that runs without error is one that ends with a value for some such bound.
-/
import MinCut.Solver.Steps

namespace MinCut

namespace Solver

/-- The variables at the head of the loop. -/
structure Passage where
  solver : Solver
  /-- The node that stopped growing at a meeting of the trees. -/
  held : Option Nat
  /-- The paths that were augmented so far, in order. -/
  told : List Augmentation
  deriving DecidableEq

/-- One passage through the loop. -/
def pass (r : Register) (n : Nat) (x : Passage) :
    Except Fault (Passage ⊕ (Solver × List Augmentation)) := do
  let (chosen, v) ← x.solver.choose x.held
  match chosen with
  | none => return .inr (v, x.told)
  | some i =>
    let (v, meeting) ← v.grow i
    match meeting with
    | none => return .inl ⟨v, none, x.told⟩
    | some m =>
      let v ← v.mark i true
      let (v, a) ← v.augment r n m
      let v ← v.adopt n
      return .inl ⟨v, some i, x.told ++ [a]⟩

/-! ## The check at the end -/

/-- Checks the cell `c` of the node `u`. -/
def checkCell (v : Solver) (u : Nat) (c : Cell) : Except Fault Unit := do
  match c.parent with
  | none => return ()
  | some .orphan => .error (.corruptForest u)
  | some .root =>
    if c.excess ≠ 0 ∧ (c.excess < 0 ↔ c.side = .sink) then return ()
    else .error (.corruptForest u)
  | some (.via a) =>
    let p ← v.arcs.head a
    let d ← fetch v.cells p
    let capacity ← v.arcs.treeResidual c.side a
    if d.isAttached ∧ d.side = c.side ∧ 0 < capacity then return ()
    else .error (.corruptForest u)

/-- Checks the cells of a list of nodes, numbered from `u` on. -/
def checkFrom (v : Solver) (u : Nat) : List Cell → Except Fault Unit
  | [] => .ok ()
  | c :: cs => do
    v.checkCell u c
    v.checkFrom (u + 1) cs

/-- Checks the trees. -/
def check (v : Solver) : Except Fault Unit := v.checkFrom 0 v.cells.toList

/-! ## Solving -/

/-- Searches for augmenting paths until there is none, and lists the augmentations. -/
def solve (r : Register) (v : Solver) (n : Nat) : Except Fault (Solver × List Augmentation) := do
  let v ← v.init
  let (v, as) ← repeatUntil (pass r n) n ⟨v, none, []⟩
  v.check
  return (v, as)

/-- The variables `w` are what `k` solves have made of `v`, each of which ran without error. -/
inductive After (r : Register) (v : Solver) : Nat → Solver → Prop where
  | zero : After r v 0 v
  | solve {k n : Nat} {w x : Solver} {as : List Augmentation} :
    After r v k w → w.solve r n = .ok (x, as) → After r v (k + 1) x

end Solver

end MinCut
