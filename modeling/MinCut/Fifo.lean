/-
# First in, first out

A queue kept as two lists: entries leave at the head of `front` and enter at the head of
`back`.  When `front` runs dry, `back` is turned round and takes its place, so each entry
is moved once.

The view is `toList`, the entries in the order in which they will leave.  Main facts:
`toList_push` and `toList_pop?`, which say that the split into two lists never shows.
-/
namespace MinCut

/-- A queue whose entries leave in the order in which they came. -/
structure Fifo (α : Type) where
  /-- The entries next to leave, the first one at the head. -/
  front : List α
  /-- The entries that came last, the very last one at the head. -/
  back : List α
  deriving DecidableEq

namespace Fifo

variable {α : Type}

/-! ## Operations -/

/-- The queue without entries. -/
def empty : Fifo α := ⟨[], []⟩

/-- The entries in the order in which they will leave. -/
def toList (q : Fifo α) : List α := q.front ++ q.back.reverse

/-- The number of entries. -/
def size (q : Fifo α) : Nat := q.front.length + q.back.length

/-- The queue with one more entry at its end. -/
def push (q : Fifo α) (a : α) : Fifo α := { q with back := a :: q.back }

/-- The first entry and the queue without it, if there is an entry. -/
def pop? (q : Fifo α) : Option (α × Fifo α) :=
  match q.front with
  | a :: front => some (a, { q with front })
  | [] =>
    match q.back.reverse with
    | a :: front => some (a, ⟨front, []⟩)
    | [] => none

/-! ## What they do to the list of entries -/

@[simp] theorem toList_empty : (empty : Fifo α).toList = [] := rfl

@[simp] theorem length_toList (q : Fifo α) : q.toList.length = q.size := by
  simp [toList, size]

/-- A new entry leaves last. -/
@[simp] theorem toList_push (q : Fifo α) (a : α) : (q.push a).toList = q.toList ++ [a] := by
  simp [toList, push]

/-- The entry that leaves is the head of the list, and the rest stays in order. -/
theorem toList_pop? (q : Fifo α) :
    q.pop?.map (fun p => (p.1, p.2.toList)) = q.toList.head?.map (fun a => (a, q.toList.tail)) := by
  obtain ⟨front, back⟩ := q
  cases front with
  | cons a front => simp [pop?, toList]
  | nil => cases h : back.reverse <;> simp [pop?, toList, h]

/-- A queue gives no entry exactly when it has none. -/
theorem pop?_eq_none_iff (q : Fifo α) : q.pop? = none ↔ q.toList = [] := by
  have h := toList_pop? q
  cases hp : q.pop? <;> cases hl : q.toList <;> simp_all

/-- Taking an entry removes the head of the list. -/
theorem toList_of_pop? {q r : Fifo α} {a : α} (h : q.pop? = some (a, r)) :
    q.toList = a :: r.toList := by
  have hv := toList_pop? q
  rw [h] at hv
  cases hl : q.toList <;> simp_all

end Fifo

end MinCut
