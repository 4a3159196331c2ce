/-
# Repeated searches

A search may be repeated on the residual network that the one before it left.
-/
import MinCut.Event
import MinCut.Search.Run

namespace MinCut

namespace Search

/-- What a solve of a search came to. -/
structure Outcome where
  /-- The search after the solve. -/
  search : Search
  /-- What the search told. -/
  events : List Event
  deriving DecidableEq

/-- Solves a search a number of times, each time where the solve before has ended. -/
def solveTimes (r : Register) (s : Search) : Nat → Except Fault (List Outcome)
  | 0 => .ok []
  | k + 1 => do
    let (s', as) ← s.solve r
    let rest ← solveTimes r s' k
    return ⟨s', Event.ofSearch s as s'⟩ :: rest

end Search

end MinCut
