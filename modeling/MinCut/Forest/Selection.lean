/-
# Choosing the node to grow

A node that met the other tree is held: it grows again as soon as the forest is repaired,
unless it lost its parent meanwhile.  Otherwise the active nodes are taken up in turn, and
those that have become free or lost their parent while they waited are passed over.
-/
import MinCut.Forest.Basic

namespace MinCut

namespace Forest

/-- Keeps the node `u` out of the queue of active nodes, or admits it again. -/
def mark (f : Forest) (u : Nat) (linked : Bool) : Except Fault Forest := do
  return { f with active := ← f.active.setLinked u linked }

/-- The active node that is next to grow, if there is one. -/
def nextActive (f : Forest) (fuel : Nat) : Except Fault (Option Nat × Forest) := do
  match f.active.pop? with
  | none => return (none, f)
  | some (u, active) =>
    let f := { f with active }
    if ← f.isAttached u then
      return (some u, f)
    else
      match fuel with
      | 0 => .error .endless
      | fuel + 1 => nextActive f fuel

/-- The node to grow: the held node if it still hangs on something, and otherwise the next
active node. -/
def choose (f : Forest) (held : Option Nat) : Except Fault (Option Nat × Forest) := do
  match held with
  | none => f.nextActive f.active.queue.size
  | some i =>
    let f ← f.mark i false
    if ← f.isAttached i then
      return (some i, f)
    else
      f.nextActive f.active.queue.size

end Forest

end MinCut
