/-
# The queue of active nodes

An active node may still be able to extend its tree.  Active nodes are taken up in the
order in which they became active, and each has a mark that says whether it is linked: a
linked node is not queued a second time.  The mark can also be set by hand, for a node
that is held outside the queue and must not enter it.

Main facts: `waiting_push` and `waiting_pop?`, which describe each operation on the list
`waiting` of queued nodes.
-/
import MinCut.Fault
import MinCut.Fifo
import MinCut.Transcript

namespace MinCut

/-- The nodes that wait to be taken up, and a mark for every node of the graph. -/
structure ActiveQueue where
  /-- The waiting nodes, first come, first served. -/
  queue : Fifo Nat
  /-- Whether a node is linked, and so kept from being queued again. -/
  linked : Array Bool
  deriving DecidableEq

namespace ActiveQueue

/-! ## Operations -/

/-- The queue for a graph without nodes. -/
def empty : ActiveQueue := ⟨.empty, #[]⟩

/-- The empty queue for a graph of `n` nodes, none of them linked. -/
def ofSize (n : Nat) : ActiveQueue := ⟨.empty, Array.replicate n false⟩

/-- The waiting nodes in the order in which they will be taken up. -/
def waiting (q : ActiveQueue) : List Nat := q.queue.toList

/-- Queues the node `u` and links it, unless it is linked already. -/
def push (q : ActiveQueue) (u : Nat) : Except Fault ActiveQueue := do
  let isLinked ← fetch q.linked u
  if isLinked then
    return q
  else
    return { queue := q.queue.push u, linked := q.linked.setIfInBounds u true }

/-- The node that has waited longest, no longer linked, if there is one. -/
def pop? (q : ActiveQueue) : Option (Nat × ActiveQueue) :=
  match q.queue.pop? with
  | some (u, queue) => some (u, { queue, linked := q.linked.setIfInBounds u false })
  | none => none

/-- Sets the mark of the node `u` and leaves the waiting nodes alone. -/
def setLinked (q : ActiveQueue) (u : Nat) (mark : Bool) : Except Fault ActiveQueue := do
  let _ ← fetch q.linked u
  return { q with linked := q.linked.setIfInBounds u mark }

/-! ## What they do to the waiting nodes -/

@[simp] theorem waiting_ofSize (n : Nat) : (ofSize n).waiting = [] := rfl

/-- A push appends an unlinked node at the end and leaves a linked one where it is. -/
theorem waiting_push {q r : ActiveQueue} {u : Nat} (h : q.push u = .ok r) :
    r.waiting = if q.linked[u]? = some true then q.waiting else q.waiting ++ [u] := by
  unfold push at h
  cases hf : fetch q.linked u with
  | error e => simp [hf, bind, Except.bind] at h
  | ok b =>
    have hb := fetch_eq_ok_iff.1 hf
    cases b <;> simp [hf, bind, Except.bind, pure, Except.pure] at h <;> subst h <;>
      simp [hb, waiting]

/-- A pop takes the head of the waiting nodes. -/
theorem waiting_pop? {q r : ActiveQueue} {u : Nat} (h : q.pop? = some (u, r)) :
    q.waiting = u :: r.waiting := by
  unfold pop? at h
  cases hp : q.queue.pop? with
  | none => simp [hp] at h
  | some p =>
    simp only [hp, Option.some.injEq, Prod.mk.injEq] at h
    obtain ⟨rfl, rfl⟩ := h
    exact Fifo.toList_of_pop? hp

/-! ## Calls -/

/-- A use of the queue. -/
inductive Call where
  /-- Start afresh for a graph of `n` nodes. -/
  | reset (n : Nat)
  /-- Queue the node `u`. -/
  | push (u : Nat)
  /-- Take up the next node. -/
  | pop
  /-- Set the mark of the node `u`. -/
  | setLinked (u : Nat) (mark : Bool)
  deriving DecidableEq

/-- What a use of the queue answers. -/
inductive Reply where
  /-- The call was carried out and has nothing to tell. -/
  | done
  /-- The node that was taken up, if one waited. -/
  | taken (u : Option Nat)
  deriving DecidableEq

/-- One use of the queue. -/
def perform (q : ActiveQueue) : Call → Except Fault (Reply × ActiveQueue)
  | .reset n => .ok (.done, ofSize n)
  | .push u => do return (.done, ← q.push u)
  | .pop =>
    match q.pop? with
    | some (u, q') => .ok (.taken (some u), q')
    | none => .ok (.taken none, q)
  | .setLinked u mark => do return (.done, ← q.setLinked u mark)

/-- One use of the queue, which a failing call leaves as it was. -/
def call (q : ActiveQueue) (c : Call) : Except Fault Reply × ActiveQueue :=
  keepOnFault q (q.perform c)

/-- The replies to a list of calls on the queue for a graph without nodes. -/
def replies (cs : List Call) : List (Except Fault Reply) := (transcript call empty cs).1

end ActiveQueue

end MinCut
