/-
# Two queues that change places

A program keeps the active nodes in two queues.  Nodes are taken up from the one and join the
other; when the one runs dry the two change places.  So a node that becomes active during a pass
over the queue is not taken up again in that pass.  The marks are read and written by index, and a
call that runs out of bounds leaves behind what it has written by then.
-/
import MinCut.ActiveQueue.Line

namespace MinCut

/-- The nodes of this pass and of the next one, and the mark of every node. -/
structure Passes where
  /-- The nodes that are taken up in this pass, the first one at the head. -/
  present : List Nat
  /-- The nodes that have joined for the next pass. -/
  next : List Nat
  linked : Array Bool
  deriving DecidableEq

namespace Passes

/-- The queues for a graph without nodes. -/
def empty : Passes := ⟨[], [], #[]⟩

/-- The queues emptied for a graph of `n` nodes. -/
def reset (n : Nat) : Passes := ⟨[], [], Array.replicate n false⟩

/-- Lets the node `u` join the next pass, unless it is linked. -/
def push (q : Passes) (u : Nat) : Except Fault Unit × Passes :=
  match fetch q.linked u with
  | .error f => (.error f, q)
  | .ok true => (.ok (), q)
  | .ok false =>
    let q := { q with linked := q.linked.setIfInBounds u true }
    (.ok (), { q with next := q.next ++ [u] })

/-- The queues with the next pass begun, if this one is over. -/
def turned (q : Passes) : Passes :=
  if q.present.isEmpty then { q with present := q.next, next := q.present } else q

/-- Takes up the next node.  Its mark is written last, when the node has left its queue. -/
def pop (q : Passes) : Except Fault (Option Nat) × Passes :=
  let q := q.turned
  match q.present with
  | [] => (.ok none, q)
  | u :: present =>
    let q := { q with present }
    match fetch q.linked u with
    | .error f => (.error f, q)
    | .ok _ => (.ok (some u), { q with linked := q.linked.setIfInBounds u false })

/-- Writes the mark of the node `u`. -/
def setLinked (q : Passes) (u : Nat) (mark : Bool) : Except Fault Unit × Passes :=
  match fetch q.linked u with
  | .error f => (.error f, q)
  | .ok _ => (.ok (), { q with linked := q.linked.setIfInBounds u mark })

/-- One use of the queues. -/
def call (q : Passes) : ActiveQueue.Call → Except Fault ActiveQueue.Reply × Passes
  | .reset n => (.ok .done, reset n)
  | .push u => (q.push u).map (fun x => x.map fun _ => .done) id
  | .pop => q.pop.map (fun x => x.map .taken) id
  | .setLinked u mark => (q.setLinked u mark).map (fun x => x.map fun _ => .done) id

/-- The line that the queues make up. -/
def line (q : Passes) : Line := ⟨q.present ++ q.next, q.linked.toList⟩

end Passes

end MinCut
