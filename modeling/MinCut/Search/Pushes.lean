/-
# Augmenting push by push

An augmentation is a sequence of single pushes: first along the arc between the trees, then up
the way to the source, tree edge by tree edge and through the root, and then up the way to the
sink.  A statement about every moment of an augmentation is one about lists of pushes.

Main fact: `pushPath_eq` : the push along a path makes the pushes of the path one by one.
-/
import MinCut.Search.Augment

namespace MinCut

/-- A single push of an augmentation. -/
inductive Push where
  /-- Along an arc. -/
  | arc (a : ArcRef)
  /-- Along the tree edge of the node `u`, from which the arc `a` leads to its parent. -/
  | step (side : Segment) (u : Nat) (a : ArcRef)
  /-- Through the root `u`. -/
  | root (side : Segment) (u : Nat)
  deriving DecidableEq

/-- The pushes along a way up, bottom up. -/
def Ascent.pushes (p : Ascent) (side : Segment) : List Push :=
  p.steps.map (fun q => .step side q.1 q.2) ++ [.root side p.root]

/-- The pushes along a path, in the order in which an augmentation makes them. -/
def Path.pushes (p : Path) : List Push :=
  .arc p.middle :: (p.source.pushes .source ++ p.sink.pushes .sink)

namespace Search

variable (r : Register) (x : Int) (s : Search)

/-- Makes a single push of `x`. -/
def push : Push → Except Fault Search
  | .arc a => s.pushArc r x a
  | .step side u a => s.pushStep r side x (u, a)
  | .root side u => s.pushRoot r side x u

theorem pushAscent_eq (side : Segment) (p : Ascent) :
    s.pushAscent r side x p = (p.pushes side).foldlM (push r x) s := by
  simp only [pushAscent, Ascent.pushes, List.foldlM_append, List.foldlM_map, List.foldlM_cons,
    List.foldlM_nil, push, bind_pure]

/-- **The push along a path** makes its pushes one by one, and then adds to the flow. -/
theorem pushPath_eq (p : Path) : s.pushPath r x p = (do
    let s ← p.pushes.foldlM (push r x) s
    let flow ← r.store (s.residual.flow + x)
    return { s with residual.flow := flow, augmentations := s.augmentations + 1 }) := by
  simp only [pushPath, Path.pushes, pushAscent_eq, List.foldlM_cons, List.foldlM_append, push,
    bind_assoc]

end Search

end MinCut
