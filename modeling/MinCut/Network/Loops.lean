/-
# Networks with more loops

A loop leaves and enters the same node, so no flow between nodes needs it.  Loops can be inserted
anywhere among the edges of a network; the edges behind them then have higher numbers.
-/
import MinCut.Network.Rewriting

namespace MinCut

namespace Network

/-- The number that the edge `k` has once an edge was inserted with the number `i`. -/
def raise (i k : Nat) : Nat := if k < i then k else k + 1

/-- **`InsertsLoops ρ N M`** : any number of loops, inserted anywhere among the edges of the network
`N`, make it `M`, where the edge `k` of `N` has the number `ρ k`. -/
inductive InsertsLoops : (Nat → Nat) → Network → Network → Prop where
  /-- No loop is inserted. -/
  | refl (N : Network) : InsertsLoops id N N
  /-- One more loop is inserted. -/
  | insert {ρ : Nat → Nat} {N : Network} (es fs : List Edge) {e : Edge}
      (ts : Array TerminalWeights) : InsertsLoops ρ N (ofEdges (es ++ fs) ts) → e.isLoop = true →
      InsertsLoops (raise es.length ∘ ρ) N (ofEdges (es ++ e :: fs) ts)

end Network

end MinCut
