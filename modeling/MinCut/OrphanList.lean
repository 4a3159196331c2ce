/-
# The list of orphans

An orphan is a tree node that has lost its parent.  The nodes orphaned by an augmentation
are stacked and taken last in, first out; each one taken from the stack may free children,
which cascade.  The whole cascade is settled first in, first out before the next node of
the stack is looked at.

Main facts: `next?_cases`, which says where the next orphan comes from, and
`order_pushSaturated` and `order_next?`, which say in which order orphans would be handed
out.
-/
import MinCut.Fifo
import MinCut.Transcript

namespace MinCut

/-- The nodes that wait for a new parent. -/
structure OrphanList where
  /-- Nodes orphaned by an augmentation, the latest one at the head. -/
  saturated : List Nat
  /-- Nodes orphaned while another orphan was settled. -/
  cascade : Fifo Nat
  deriving DecidableEq

namespace OrphanList

/-! ## Operations -/

/-- No orphans. -/
def empty : OrphanList := ⟨[], .empty⟩

/-- Adds a node orphaned by an augmentation. -/
def pushSaturated (l : OrphanList) (u : Nat) : OrphanList :=
  { l with saturated := u :: l.saturated }

/-- Adds a node orphaned while another orphan was settled. -/
def pushCascade (l : OrphanList) (u : Nat) : OrphanList :=
  { l with cascade := l.cascade.push u }

/-- The next orphan to settle and the list without it, if there is one. -/
def next? (l : OrphanList) : Option (Nat × OrphanList) :=
  match l.cascade.pop? with
  | some (u, cascade) => some (u, { l with cascade })
  | none =>
    match l.saturated with
    | u :: saturated => some (u, { l with saturated })
    | [] => none

/-- All orphans in the order in which they are handed out if no more arrive. -/
def order (l : OrphanList) : List Nat := l.cascade.toList ++ l.saturated

/-! ## What they do to the order -/

@[simp] theorem order_empty : empty.order = [] := rfl

/-- An orphan of an augmentation goes behind the cascade and before the older ones. -/
theorem order_pushSaturated (l : OrphanList) (u : Nat) :
    (l.pushSaturated u).order = l.cascade.toList ++ u :: l.saturated := rfl

/-- An orphan of the cascade goes to the end of the cascade. -/
theorem order_pushCascade (l : OrphanList) (u : Nat) :
    (l.pushCascade u).order = l.cascade.toList ++ u :: l.saturated := by
  simp [order, pushCascade]

/-- **The next orphan** is the first of the cascade, and only if the cascade is empty the top of the
stack. -/
theorem next?_cases {l r : OrphanList} {u : Nat} (h : l.next? = some (u, r)) :
    (∃ cascade, l.cascade.pop? = some (u, cascade) ∧ r = { l with cascade }) ∨
      ∃ saturated, l.cascade.toList = [] ∧ l.saturated = u :: saturated ∧
        r = { l with saturated } := by
  unfold next? at h
  cases hp : l.cascade.pop? with
  | some p =>
    simp only [hp, Option.some.injEq, Prod.mk.injEq] at h
    obtain ⟨rfl, rfl⟩ := h
    exact .inl ⟨p.2, rfl, rfl⟩
  | none =>
    have he := (Fifo.pop?_eq_none_iff l.cascade).1 hp
    cases hs : l.saturated with
    | nil => simp [hp, hs] at h
    | cons v vs =>
      simp only [hp, hs, Option.some.injEq, Prod.mk.injEq] at h
      obtain ⟨rfl, rfl⟩ := h
      exact .inr ⟨vs, he, rfl, rfl⟩

/-- The orphan handed out is the head of the order, and the rest keeps its order. -/
theorem order_next? {l r : OrphanList} {u : Nat} (h : l.next? = some (u, r)) :
    l.order = u :: r.order := by
  rcases next?_cases h with ⟨cascade, hp, rfl⟩ | ⟨saturated, he, hs, rfl⟩
  · simp [order, Fifo.toList_of_pop? hp]
  · simp [order, he, hs]

/-- No orphan is handed out exactly when there is none. -/
theorem next?_eq_none_iff (l : OrphanList) : l.next? = none ↔ l.order = [] := by
  unfold next? order
  cases hp : l.cascade.pop? with
  | some p => simp [Fifo.toList_of_pop? hp]
  | none =>
    have he := (Fifo.pop?_eq_none_iff l.cascade).1 hp
    cases hs : l.saturated <;> simp [he]

/-! ## Calls -/

/-- A use of the list of orphans. -/
inductive Call where
  /-- Add a node orphaned by an augmentation. -/
  | pushSaturated (u : Nat)
  /-- Add a node orphaned while another one was settled. -/
  | pushCascade (u : Nat)
  /-- Forget all orphans. -/
  | clear
  /-- Take the next orphan. -/
  | next
  deriving DecidableEq

/-- What a use of the list answers. -/
inductive Reply where
  /-- The call was carried out and has nothing to tell. -/
  | done
  /-- The orphan that was taken, if there was one. -/
  | taken (u : Option Nat)
  deriving DecidableEq

/-- One use of the list of orphans; none can fail. -/
def call (l : OrphanList) : Call → Reply × OrphanList
  | .pushSaturated u => (.done, l.pushSaturated u)
  | .pushCascade u => (.done, l.pushCascade u)
  | .clear => (.done, empty)
  | .next =>
    match l.next? with
    | some (u, l') => (.taken (some u), l')
    | none => (.taken none, l)

/-- The replies to a list of calls on a list without orphans. -/
def replies (cs : List Call) : List Reply := (transcript call empty cs).1

end OrphanList

end MinCut
