/-
# Sessions call by call

What is said of a session speaks of its calls by number: the graph before a call, the answer to
it, what an observer has heard by then, and whether the graph was solved before.  Whether it was
can be told from the replies alone, for a graph keeps a search from its first solve on.

Key facts:
* `Exchange.answer` : the answer to a call is given by the graph before it;
* `graphBefore_succ` and `heard_succ` : one call more;
* `solvedBefore_iff` : a graph keeps a search exactly if a solve has succeeded before, by induction
  on the number of calls.
-/
import MinCut.Proofs.Edits

namespace MinCut

namespace Graph

variable {r : Register} {config : Config} {cs : List Call} {j k : Nat} {c : Call} {a : Answer}
variable {bits : Nat}

/-! ## Calls by number -/

/-- The graph before the call with number `k`. -/
def graphBefore (r : Register) (config : Config) (cs : List Call) (k : Nat) : Graph r :=
  (session r config (cs.take k)).2

/-- In the session of `cs` the call with number `k` is `c`, and `a` is the answer to it. -/
structure Exchange (r : Register) (config : Config) (cs : List Call) (k : Nat) (c : Call)
    (a : Answer) : Prop where
  call_eq : cs[k]? = some c
  answer_eq : (session r config cs).1[k]? = some a

/-- What an observer has heard before the call with number `k`. -/
def heard (r : Register) (config : Config) (cs : List Call) (k : Nat) : List Event :=
  ((session r config cs).1.take k).flatMap Answer.events

/-- A solve with a number below `k` has succeeded. -/
def SolvedBefore (r : Register) (config : Config) (cs : List Call) (k : Nat) : Prop :=
  ∃ j f es, j < k ∧ Exchange r config cs j .solve ⟨.capacity f, es⟩

/-- Every call has an answer, given by the graph before it. -/
theorem exchange_of_call (h : cs[k]? = some c) :
    Exchange r config cs k c ((graphBefore r config cs k).call c).1 :=
  ⟨h, getElem?_transcript h⟩

/-- **The answer to a call** is given by the graph before it. -/
theorem Exchange.answer (h : Exchange r config cs k c a) :
    ((graphBefore r config cs k).call c).1 = a :=
  Option.some.inj ((exchange_of_call h.call_eq).answer_eq.symm.trans h.answer_eq)

@[simp] theorem graphBefore_zero : graphBefore r config cs 0 = empty r config := rfl

/-- The graph after a call. -/
theorem graphBefore_succ (h : cs[k]? = some c) :
    graphBefore r config cs (k + 1) = ((graphBefore r config cs k).call c).2 :=
  transcript_take_succ h

/-- There is no call past the end. -/
theorem graphBefore_succ_of_none (h : cs[k]? = none) :
    graphBefore r config cs (k + 1) = graphBefore r config cs k := by
  rw [graphBefore, List.take_add_one, h, Option.toList_none, List.append_nil, graphBefore]

@[simp] theorem heard_zero : heard r config cs 0 = [] := rfl

/-- What is heard of a call adds to what was heard before. -/
theorem heard_succ (h : Exchange r config cs k c a) :
    heard r config cs (k + 1) = heard r config cs k ++ a.events := by
  rw [heard, List.take_add_one, h.answer_eq, Option.toList_some, List.flatMap_append]
  simp [heard]

theorem heard_succ_of_none (h : cs[k]? = none) :
    heard r config cs (k + 1) = heard r config cs k := by
  have hanswers : (session r config cs).1[k]? = none := by
    rw [List.getElem?_eq_none_iff] at h ⊢
    rw [session, length_transcript]
    exact h
  rw [heard, List.take_add_one, hanswers, Option.toList_none, List.append_nil, heard]

/-- Before every call the graph is plain or solved. -/
theorem graphBefore_valid (hr : r.IsMachine bits) (hfits : ∀ c ∈ cs, Call.fits r c = true)
    (config : Config) (k : Nat) : (graphBefore r config cs k).Valid (Register.limit bits) :=
  (empty_valid config).calls hr fun c hc => hfits c (List.mem_of_mem_take hc)

theorem graphBefore_built (hfits : ∀ c ∈ cs, Call.fits r c = true) (config : Config) (k : Nat) :
    (graphBefore r config cs k).Built :=
  ⟨config, cs.take k, fun c hc => hfits c (List.mem_of_mem_take hc), rfl⟩

/-! ## Graphs that keep a search -/

/-- A graph keeps a search exactly if it kept one before the call, or the call is a solve that
succeeds. -/
theorem isSome_search_call (g : Graph r) (c : Call) : (g.call c).2.search.isSome = true ↔
    g.search.isSome = true ∨ c = .solve ∧ ∃ f es, (g.call c).1 = ⟨.capacity f, es⟩ := by
  cases c with
  | edit e =>
    cases he : g.edit e with
    | error err => simp [call, he]
    | ok p =>
      obtain ⟨reply, g'⟩ := p
      obtain ⟨hs, hs'⟩ := search_of_edit he
      simp [call, he, hs, hs']
  | solve =>
    cases hx : g.solve with
    | error err => simp [call, hx]
    | ok x =>
      obtain ⟨s, hs, -⟩ := exists_search_of_solve hx
      simp [call, hx, hs]
  | ask q => simp [call]

/-- **A graph keeps a search exactly if a solve has succeeded before.** -/
theorem solvedBefore_iff :
    SolvedBefore r config cs k ↔ (graphBefore r config cs k).search.isSome = true := by
  induction k with
  | zero => simp [SolvedBefore, empty]
  | succ k ih =>
    have hsplit : SolvedBefore r config cs (k + 1) ↔ SolvedBefore r config cs k ∨
        ∃ f es, Exchange r config cs k .solve ⟨.capacity f, es⟩ := by
      constructor
      · rintro ⟨j, f, es, hj, h⟩
        rcases Nat.lt_succ_iff_lt_or_eq.1 hj with hj | rfl
        · exact .inl ⟨j, f, es, hj, h⟩
        · exact .inr ⟨f, es, h⟩
      · rintro (⟨j, f, es, hj, h⟩ | ⟨f, es, h⟩)
        · exact ⟨j, f, es, Nat.lt_succ_of_lt hj, h⟩
        · exact ⟨k, f, es, Nat.lt_succ_self k, h⟩
    rw [hsplit]
    cases hc : cs[k]? with
    | none =>
      rw [graphBefore_succ_of_none hc, ih, or_iff_left]
      rintro ⟨f, es, h⟩
      exact absurd (hc.symm.trans h.call_eq) (by simp)
    | some c =>
      rw [graphBefore_succ hc, isSome_search_call, ih]
      refine or_congr_right ⟨?_, ?_⟩
      · rintro ⟨f, es, h⟩
        obtain rfl : c = .solve := Option.some.inj (hc.symm.trans h.call_eq)
        exact ⟨rfl, f, es, h.answer⟩
      · rintro ⟨rfl, f, es, h⟩
        exact ⟨f, es, h ▸ exchange_of_call hc⟩

end Graph

end MinCut
