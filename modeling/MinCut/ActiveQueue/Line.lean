/-
# A plain line of nodes

The queue of active nodes described without its representation: one list of waiting nodes
and one mark for each node.  A node joins at the end of the list unless it is marked, and
the head of the list leaves and loses its mark.
-/
import MinCut.ActiveQueue

namespace MinCut

/-- Waiting nodes and marks. -/
structure Line where
  /-- The waiting nodes; the head of the list is next. -/
  waiting : List Nat
  /-- The mark of every node. -/
  marks : List Bool
  deriving DecidableEq

namespace Line

/-- The line for a graph without nodes. -/
def empty : Line := ⟨[], []⟩

/-- The line that the queue `q` represents. -/
def ofQueue (q : ActiveQueue) : Line := ⟨q.waiting, q.linked.toList⟩

/-- One use of the line.  A node without a mark of its own is out of range, and a call that
is out of range changes nothing. -/
def call (l : Line) : ActiveQueue.Call → Except Fault ActiveQueue.Reply × Line
  | .reset n => (.ok .done, ⟨[], List.replicate n false⟩)
  | .push u =>
    match l.marks[u]? with
    | none => (.error (.outOfRange u l.marks.length), l)
    | some true => (.ok .done, l)
    | some false => (.ok .done, ⟨l.waiting ++ [u], l.marks.set u true⟩)
  | .pop =>
    match l.waiting with
    | [] => (.ok (.taken none), l)
    | u :: us => (.ok (.taken (some u)), ⟨us, l.marks.set u false⟩)
  | .setLinked u mark =>
    match l.marks[u]? with
    | none => (.error (.outOfRange u l.marks.length), l)
    | some _ => (.ok .done, { l with marks := l.marks.set u mark })

end Line

end MinCut
