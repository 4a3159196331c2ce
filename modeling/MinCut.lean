import MinCut.ActiveQueue.Line
import MinCut.ArcTable.Calls
import MinCut.ArcTable.Counting
import MinCut.Forest.Chain
import MinCut.Graph.Calls
import MinCut.Graph.Instance
import MinCut.Network.Cut
import MinCut.Network.Flow
import MinCut.Proofs.Accounting
import MinCut.Proofs.Agreement
import MinCut.Proofs.Augmentations
import MinCut.Proofs.EventLog
import MinCut.Proofs.ForestAtHeads
import MinCut.Proofs.LeftoverState
import MinCut.Proofs.Loops
import MinCut.Proofs.Monotonicity
import MinCut.Proofs.Optimum
import MinCut.Proofs.OverflowDecision
import MinCut.Proofs.Phases
import MinCut.Proofs.Reachability
import MinCut.Proofs.Rebuilding
import MinCut.Proofs.Refusals
import MinCut.Proofs.Repairs
import MinCut.Proofs.Reparametrization
import MinCut.Proofs.Rewriting
import MinCut.Proofs.SolvedGraphs
import MinCut.Proofs.Termination
import MinCut.Proofs.TimeOrder
import MinCut.Proofs.Transfers
import MinCut.Residual.Reach
import MinCut.Search.InPlace
import MinCut.Search.Pushes
import MinCut.Search.Repeat
import MinCut.ActiveQueue.Passes
import MinCut.Proofs.QueueLine
import MinCut.Graph.Increments
import MinCut.Proofs.Increments
import MinCut.Proofs.Activations
import MinCut.Proofs.OrphanMarks
import MinCut.ArcTable.Uses
import MinCut.Proofs.TableUses
import MinCut.Proofs.FailedBuilds
