/-
# The queue of active nodes is one line

However the waiting nodes are split into the nodes of this pass and those of the next one, and
whenever the two queues change places, the calls are answered as by one line of nodes with a mark
for each.  Marks that are set by hand may let a node wait twice or keep one out for good; the line
does the same.

Only a call that names a node out of range fails, and it leaves everything as it was: every waiting
node has a mark, so taking up a node does not fail.

Key facts:
* `Line.call_eq_error_iff` : which calls fail;
* `line_call` : one call on the queue;
* `Passes.line_call` : one call on the two queues, which keeps every waiting node in range;
* `calls_asOneLine` : all calls, one after the other.
-/
import Mathlib.Data.List.Basic
import MinCut.ActiveQueue.Passes
import MinCut.Proofs.ActiveNodes

namespace MinCut

/-! ## The line -/

namespace ActiveQueue

/-- The node that a call names. -/
def Call.node? : Call → Option Nat
  | .push u => some u
  | .setLinked u _ => some u
  | _ => none

/-- How many nodes have marks after a call, if there are `n` before it. -/
def Call.range (n : Nat) : Call → Nat
  | .reset m => m
  | _ => n

/-- For how many nodes the last reset among the calls was. -/
def lastReset (cs : List Call) : Nat := cs.foldl Call.range 0

end ActiveQueue

namespace Line

variable {l : Line} {c : ActiveQueue.Call} {u : Nat}

/-- **A call on the line fails** exactly if it names a node without a mark. -/
theorem call_eq_error_iff :
    (∃ f, (l.call c).1 = .error f) ↔ ∃ u, c.node? = some u ∧ l.marks.length ≤ u := by
  cases c with
  | reset n => simp [call, ActiveQueue.Call.node?]
  | pop =>
    simp only [call, ActiveQueue.Call.node?]
    split <;> simp
  | push u =>
    simp only [call, ActiveQueue.Call.node?]
    split
    · have hle := List.getElem?_eq_none_iff.1 ‹_›
      simpa using hle
    all_goals
      have hlt := (List.getElem?_eq_some_iff.1 ‹_›).1
      simpa using hlt
  | setLinked u mark =>
    simp only [call, ActiveQueue.Call.node?]
    split
    · have hle := List.getElem?_eq_none_iff.1 ‹_›
      simpa using hle
    · have hlt := (List.getElem?_eq_some_iff.1 ‹_›).1
      simpa using hlt

/-- Only a reset changes for how many nodes there are marks. -/
theorem length_marks_call : (l.call c).2.marks.length = c.range l.marks.length := by
  cases c with
  | reset n => simp [call, ActiveQueue.Call.range]
  | pop =>
    simp only [call, ActiveQueue.Call.range]
    split <;> simp
  | push u =>
    simp only [call, ActiveQueue.Call.range]
    split <;> simp
  | setLinked u mark =>
    simp only [call, ActiveQueue.Call.range]
    split <;> simp

/-- There are marks for as many nodes as the last reset was for. -/
theorem length_marks (cs : List ActiveQueue.Call) :
    (transcript call l cs).2.marks.length = cs.foldl ActiveQueue.Call.range l.marks.length := by
  induction cs generalizing l with
  | nil => rfl
  | cons c cs ih =>
    rw [List.foldl_cons, ← length_marks_call]
    exact ih

/-- Every waiting node has a mark. -/
def InRange (l : Line) : Prop := ∀ u ∈ l.waiting, u < l.marks.length

/-- **A call keeps every waiting node in range**, for a node that joins has a mark. -/
theorem InRange.call (h : l.InRange) (c : ActiveQueue.Call) : (l.call c).2.InRange := by
  cases c with
  | reset n => simp [InRange, Line.call]
  | pop =>
    simp only [Line.call]
    split
    · exact h
    · rename_i u us hw
      intro v hv
      rw [List.length_set]
      exact h v (hw ▸ List.mem_cons_of_mem u hv)
  | push u =>
    simp only [Line.call]
    split
    · exact h
    · exact h
    · have hlt := (List.getElem?_eq_some_iff.1 ‹_›).1
      intro v hv
      rw [List.length_set]
      rcases List.mem_append.1 hv with hv | hv
      · exact h v hv
      · rwa [List.mem_singleton.1 hv]
  | setLinked u mark =>
    simp only [Line.call]
    split
    · exact h
    · intro v hv
      rw [List.length_set]
      exact h v hv

end Line

/-- Reading a mark from an array is reading it from the list of the entries. -/
theorem fetch_marks (marks : Array Bool) (u : Nat) : fetch marks u =
    match marks.toList[u]? with
    | some mark => .ok mark
    | none => .error (.outOfRange u marks.toList.length) := by
  simp only [fetch, Array.getElem?_toList, Array.length_toList]
  cases marks[u]? <;> rfl

/-! ## The queue -/

namespace ActiveQueue

/-- **One call on the queue** is a call on the line that it represents. -/
theorem line_call (q : ActiveQueue) (c : Call) :
    (q.call c).1 = ((Line.ofQueue q).call c).1 ∧
      Line.ofQueue (q.call c).2 = ((Line.ofQueue q).call c).2 := by
  cases c with
  | reset n => simp [call, perform, keepOnFault, Line.call, Line.ofQueue, ofSize, waiting]
  | pop =>
    cases hp : q.pop? with
    | none =>
      have hw := waiting_eq_nil_of_pop? hp
      simp only [call, perform, hp, keepOnFault, Line.call, Line.ofQueue, hw, and_self]
    | some p =>
      obtain ⟨u, q'⟩ := p
      have hw := waiting_pop? hp
      have hl := linked_of_pop? hp
      simp only [call, perform, hp, keepOnFault, Line.call, Line.ofQueue, hw, hl,
        Array.toList_setIfInBounds, and_self]
  | push u =>
    simp only [call, perform, push, fetch_marks, Line.call, Line.ofQueue]
    cases hm : q.linked.toList[u]? with
    | none => exact ⟨rfl, rfl⟩
    | some mark =>
      cases mark with
      | true => exact ⟨rfl, rfl⟩
      | false =>
        refine ⟨rfl, ?_⟩
        simp [bind, Except.bind, pure, Except.pure, keepOnFault, waiting]
  | setLinked u mark =>
    simp only [call, perform, setLinked, fetch_marks, Line.call, Line.ofQueue]
    cases hm : q.linked.toList[u]? with
    | none => exact ⟨rfl, rfl⟩
    | some b =>
      refine ⟨rfl, ?_⟩
      simp [bind, Except.bind, pure, Except.pure, keepOnFault, waiting]

end ActiveQueue

/-! ## The two queues -/

namespace Passes

variable {q : Passes} {c : ActiveQueue.Call} {f : Fault}

@[simp] theorem line_turned (q : Passes) : q.turned.line = q.line := by
  unfold turned
  split
  · have hnil := List.isEmpty_iff.1 ‹_›
    simp [line, hnil]
  · rfl

/-- If no node is left in this pass even when the next one has begun, none waits. -/
theorem turned_eq (h : q.turned.present = []) : q.turned = q ∧ q.line.waiting = [] := by
  obtain ⟨present, next, linked⟩ := q
  cases present with
  | nil =>
    obtain rfl : next = [] := h
    exact ⟨rfl, rfl⟩
  | cons u us => cases h

@[simp] theorem linked_turned (q : Passes) : q.turned.linked = q.linked := by
  unfold turned
  split <;> rfl

/-- **Taking up a node** from the two queues is taking it up from the line. -/
theorem pop_eq (h : q.line.InRange) :
    q.pop.1 = .ok q.line.waiting.head? ∧ q.pop.2.line = (q.line.call .pop).2 := by
  unfold pop
  cases hp : q.turned.present with
  | nil =>
    obtain ⟨hq, hw⟩ := turned_eq hp
    simp [hp, hw, Line.call]
  | cons u us =>
    have hw : q.line.waiting = u :: (us ++ q.turned.next) := by
      rw [← line_turned]
      simp [line, hp]
    have hlt : u < q.linked.size := by
      have hu := h u (hw ▸ List.mem_cons_self)
      rwa [line, Array.length_toList] at hu
    simp only [hp, linked_turned, fetch_of_lt hlt, Line.call, hw, List.head?_cons, true_and]
    simp [line]

/-- **One call on the two queues** is a call on the line that they make up. -/
theorem line_call (h : q.line.InRange) (c : ActiveQueue.Call) :
    (q.call c).1 = (q.line.call c).1 ∧ (q.call c).2.line = (q.line.call c).2 := by
  cases c with
  | reset n => simp [call, reset, Line.call, line]
  | pop =>
    obtain ⟨hreply, hline⟩ := pop_eq h
    refine ⟨?_, hline⟩
    simp only [call, Prod.map, hreply, Line.call]
    cases q.line.waiting <;> rfl
  | push u =>
    simp only [call, push, fetch_marks, Line.call, line]
    cases q.linked.toList[u]? with
    | none => exact ⟨rfl, rfl⟩
    | some mark => cases mark <;> simp [Except.map]
  | setLinked u mark =>
    simp only [call, setLinked, fetch_marks, Line.call, line]
    cases q.linked.toList[u]? <;> simp [Except.map]

/-- **A call that fails** has written nothing. -/
theorem call_of_error (h : q.line.InRange) (hf : (q.call c).1 = .error f) : (q.call c).2 = q := by
  cases c with
  | reset n => cases hf
  | pop => simp [call, Except.map, (pop_eq h).1] at hf
  | push u =>
    simp only [call, push] at hf ⊢
    cases hm : fetch q.linked u with
    | error e => rfl
    | ok mark => cases mark <;> simp [hm, Except.map] at hf
  | setLinked u mark =>
    simp only [call, setLinked] at hf ⊢
    cases hm : fetch q.linked u with
    | error e => rfl
    | ok b => simp [hm, Except.map] at hf

end Passes

/-! ## All calls -/

/-- The queue answers all calls as the line does. -/
theorem ActiveQueue.transcript_line (cs : List ActiveQueue.Call) :
    (transcript ActiveQueue.call .empty cs).1 = (transcript Line.call .empty cs).1 ∧
      Line.ofQueue (transcript ActiveQueue.call .empty cs).2 =
        (transcript Line.call .empty cs).2 := by
  refine transcript_related (R := fun (q : ActiveQueue) l => Line.ofQueue q = l) ?_ rfl cs
  rintro q l c rfl
  exact line_call q c

/-- The two queues answer all calls as the line does, and every waiting node stays in range. -/
theorem Passes.transcript_line (cs : List ActiveQueue.Call) :
    (transcript Passes.call .empty cs).1 = (transcript Line.call .empty cs).1 ∧
      (transcript Passes.call .empty cs).2.line = (transcript Line.call .empty cs).2 ∧
        (transcript Passes.call .empty cs).2.line.InRange := by
  refine transcript_related (R := fun (p : Passes) l => p.line = l ∧ p.line.InRange) ?_
    ⟨rfl, by simp [Line.InRange, Passes.line, Passes.empty]⟩ cs
  rintro p l c ⟨rfl, hrange⟩
  obtain ⟨hreply, hline⟩ := line_call hrange c
  refine ⟨hreply, hline, ?_⟩
  rw [hline]
  exact hrange.call c

/-- **The queue of active nodes is one line.**  Whatever calls are made, the queue and the two
queues that change places answer them as one line of nodes does.  The next call fails exactly if it
names a node beyond those that the last reset was for, and then it changes nothing. -/
theorem ActiveQueue.calls_asOneLine (cs : List ActiveQueue.Call) :
    ∃ replies l q p, transcript Line.call .empty cs = (replies, l) ∧
      transcript ActiveQueue.call .empty cs = (replies, q) ∧ Line.ofQueue q = l ∧
      transcript Passes.call .empty cs = (replies, p) ∧ p.line = l ∧
      ∀ c, ((∃ f, (p.call c).1 = .error f) ↔ ∃ u, c.node? = some u ∧ lastReset cs ≤ u) ∧
        ∀ f, (p.call c).1 = .error f → (p.call c).2 = p := by
  obtain ⟨hreplies, hline⟩ := transcript_line cs
  obtain ⟨hreplies', hline', hrange⟩ := Passes.transcript_line cs
  refine ⟨_, _, _, _, rfl, Prod.ext hreplies rfl, hline, Prod.ext hreplies' rfl, hline', ?_⟩
  intro c
  have hlen := Line.length_marks (l := .empty) cs
  refine ⟨?_, fun f => Passes.call_of_error hrange⟩
  rw [(Passes.line_call hrange c).1, Line.call_eq_error_iff, hline', hlen]
  rfl

/-- A node whose mark is taken away while it waits joins the line once more. -/
example : (transcript Passes.call .empty
    [.reset 1, .push 0, .push 0, .setLinked 0 false, .push 0, .pop, .pop, .pop]).1 =
    [.ok .done, .ok .done, .ok .done, .ok .done, .ok .done, .ok (.taken (some 0)),
      .ok (.taken (some 0)), .ok (.taken none)] := by
  decide

end MinCut
