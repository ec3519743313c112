import Knapsack.CommandLine.Response
import Knapsack.Rehearsed
import Knapsack.Main
import Knapsack.Proofs.Relaxation.Optimal
import Knapsack.Proofs.Search.Improving
import Knapsack.Proofs.Search.Optimality
import Knapsack.Proofs.Search.Safety
import Knapsack.Proofs.Search.Story
import Knapsack.Proofs.Search.Assistance
import Knapsack.Proofs.Search.Lockstep
import Knapsack.Proofs.Search.Interchange
import Knapsack.Proofs.SolutionSet.Records
import Knapsack.Proofs.Search.Keeping
import Knapsack.Proofs.Search.Ancestry
import Knapsack.Proofs.Search.Accounts
import Knapsack.Proofs.Search.BestFirst
import Knapsack.Proofs.Search.Calls
import Knapsack.Proofs.Search.Leftovers
import Knapsack.Proofs.Relaxation.Shape
import Knapsack.Proofs.SolutionSet.Offers
import Knapsack.Proofs.Frontier.Stamped
import Knapsack.Proofs.Search.DepthFirst
import Knapsack.Proofs.Search.BreadthFirst
import Knapsack.Proofs.Branching.Partition
import Knapsack.Proofs.File.Comments
import Knapsack.Proofs.File.RoundTrip
import Knapsack.Proofs.Observer.Reuse
import Knapsack.Proofs.Search.Tracking
import Knapsack.Proofs.Fraction.Exact
import Knapsack.Proofs.Fixation.Refinement
import Knapsack.Proofs.Heuristic.Exchange
import Knapsack.Proofs.Instance.Canonical
