import ProblemSolving.Constraint.Arithmetic
import ProblemSolving.Constraint.Backtracking
import ProblemSolving.Constraint.Domains
import ProblemSolving.Constraint.MinConflicts
import ProblemSolving.Constraint.Model
import ProblemSolving.Constraint.Outcome
import ProblemSolving.Constraint.Propagation
import ProblemSolving.Digest.Sha256
import ProblemSolving.Frontier.Basic
import ProblemSolving.Frontier.Heap
import ProblemSolving.Json.Reader
import ProblemSolving.Json.Value
import ProblemSolving.Local.Annealing
import ProblemSolving.Local.Genetic
import ProblemSolving.Local.HillClimbing
import ProblemSolving.Local.Landscape
import ProblemSolving.Local.Roulette
import ProblemSolving.Main
import ProblemSolving.Number.Decimal
import ProblemSolving.Number.Double
import ProblemSolving.Number.Rounding
import ProblemSolving.Number.Scalar
import ProblemSolving.Number.Word
import ProblemSolving.Planning.Facts
import ProblemSolving.Planning.MeansEnds
import ProblemSolving.Proofs.Constraint.ArcConsistency
import ProblemSolving.Proofs.Constraint.ArcQueue
import ProblemSolving.Proofs.Constraint.Backtracking
import ProblemSolving.Proofs.Constraint.Links
import ProblemSolving.Proofs.Constraint.LiveValues
import ProblemSolving.Proofs.Constraint.Meaning
import ProblemSolving.Proofs.Constraint.Pruning
import ProblemSolving.Proofs.Frontier.Arrivals
import ProblemSolving.Proofs.Frontier.Contents
import ProblemSolving.Proofs.Frontier.HeapOrder
import ProblemSolving.Proofs.Number.Counting
import ProblemSolving.Proofs.Number.Difference
import ProblemSolving.Proofs.Number.Exact
import ProblemSolving.Proofs.Number.Order
import ProblemSolving.Proofs.Number.RoundedSum
import ProblemSolving.Proofs.Planning.Execution
import ProblemSolving.Proofs.Search.Astar
import ProblemSolving.Proofs.Search.Budgets
import ProblemSolving.Proofs.Search.Consistency
import ProblemSolving.Proofs.Search.Coverage
import ProblemSolving.Proofs.Search.Deepening
import ProblemSolving.Proofs.Search.Descent
import ProblemSolving.Proofs.Search.EveryStrategy
import ProblemSolving.Proofs.Search.Exhaustion
import ProblemSolving.Proofs.Search.Exploration
import ProblemSolving.Proofs.Search.Iteration
import ProblemSolving.Proofs.Search.Layers
import ProblemSolving.Proofs.Search.LiveEntries
import ProblemSolving.Proofs.Search.Offers
import ProblemSolving.Proofs.Search.Once
import ProblemSolving.Proofs.Search.OpenClosed
import ProblemSolving.Proofs.Search.Progress
import ProblemSolving.Proofs.Search.Recording
import ProblemSolving.Proofs.Search.Replay
import ProblemSolving.Proofs.Search.Rising
import ProblemSolving.Proofs.Search.Rounds
import ProblemSolving.Proofs.Search.Runs
import ProblemSolving.Proofs.Search.TimeLimits
import ProblemSolving.Proofs.Search.Turns
import ProblemSolving.Proofs.Search.UniformCost
import ProblemSolving.Proofs.Search.UnitCost
import ProblemSolving.Proofs.Search.ZeroEstimate
import ProblemSolving.Proofs.StateSpace.Expansion
import ProblemSolving.Proofs.StateSpace.Lineage
import ProblemSolving.Proofs.StateSpace.Paths
import ProblemSolving.Random.ChaCha
import ProblemSolving.Random.Source
import ProblemSolving.Random.SplitMix
import ProblemSolving.Search.BestFirst
import ProblemSolving.Search.Comparison
import ProblemSolving.Search.DepthLimited
import ProblemSolving.Search.Explore
import ProblemSolving.Search.Outcome
import ProblemSolving.Search.Policy
import ProblemSolving.Search.Run
import ProblemSolving.Search.Strategies
import ProblemSolving.Search.TraceText
import ProblemSolving.Settings.Formats
import ProblemSolving.Settings.Record
import ProblemSolving.StateSpace.Path
import ProblemSolving.StateSpace.Problem
import ProblemSolving.StateSpace.SearchTree
import ProblemSolving.Text.Column
import ProblemSolving.Text.Printable
import ProblemSolving.Text.Quoted
import ProblemSolving.World.Models
import ProblemSolving.World.Monkey
import ProblemSolving.World.NumberWalk
import ProblemSolving.World.Queens
import ProblemSolving.World.ReferenceRuns
import ProblemSolving.World.River
import ProblemSolving.World.RoadMap
import ProblemSolving.World.SlidingPuzzle
import ProblemSolving.World.Tent
import ProblemSolving.Proofs.Constraint.StaticOrder
import ProblemSolving.Proofs.Constraint.StrongerInference
import ProblemSolving.Proofs.Constraint.Repair
import ProblemSolving.Proofs.World.Queens
import ProblemSolving.Proofs.World.QueensModel
import ProblemSolving.Proofs.Constraint.SeededPropagation
import ProblemSolving.Proofs.Search.LazyDeletion
import ProblemSolving.Proofs.World.SlidingBoard
import ProblemSolving.Proofs.World.SlidingParity
import ProblemSolving.Proofs.World.SlidingReach
import ProblemSolving.Proofs.World.SlidingTexts
import ProblemSolving.Proofs.World.SlidingEstimates
import ProblemSolving.Proofs.Search.WholeEstimates
import ProblemSolving.Proofs.World.SlidingSearch
import ProblemSolving.Proofs.Search.FoundGoals
import ProblemSolving.Proofs.Constraint.Trials
import ProblemSolving.Proofs.Constraint.AssignmentBudget
import ProblemSolving.Proofs.Constraint.RepairRounds
import ProblemSolving.Proofs.Constraint.Restoration
import ProblemSolving.Proofs.Constraint.Clashes
import ProblemSolving.Proofs.Search.Preorder
import ProblemSolving.Proofs.Search.SuccessivePasses
import ProblemSolving.Proofs.Search.Moments
import ProblemSolving.Proofs.Search.CurrentPath
import ProblemSolving.Proofs.Search.Accounting
import ProblemSolving.Proofs.Planning.Calls
import ProblemSolving.Proofs.Planning.Guards
import ProblemSolving.Proofs.Planning.Failures
import ProblemSolving.Proofs.Planning.SubgoalStack
import ProblemSolving.Proofs.Constraint.NestedUndo
import ProblemSolving.Proofs.Frontier.StablePriority
import ProblemSolving.Proofs.World.River
import ProblemSolving.Proofs.Search.FaithfulLog
import ProblemSolving.Proofs.Number.Shortest
import ProblemSolving.Proofs.Json.Numbers
import ProblemSolving.Proofs.Json.RoundTrip
import ProblemSolving.Proofs.Search.CanonicalText
import ProblemSolving.Proofs.Search.ExactSums
import ProblemSolving.Proofs.World.RoadMap
import ProblemSolving.Proofs.World.Routes
import ProblemSolving.Proofs.Local.Ascent
import ProblemSolving.Proofs.Number.Quotients
import ProblemSolving.Proofs.World.Tent
import ProblemSolving.Proofs.Number.Signs
import ProblemSolving.Proofs.Random.UnitInterval
import ProblemSolving.Proofs.Local.Annealing
import ProblemSolving.Proofs.Local.UndefinedValues
import ProblemSolving.Proofs.Local.Roulette
import ProblemSolving.Proofs.Local.Offspring
import ProblemSolving.Proofs.Local.Generations
import ProblemSolving.Proofs.Local.Ancestry
import ProblemSolving.Proofs.Local.FittestSeen
import ProblemSolving.Proofs.Local.ParentSelection
import ProblemSolving.Proofs.Local.MissingFitness
import ProblemSolving.Proofs.World.QueensBred
import ProblemSolving.Proofs.Constraint.Refusals
import ProblemSolving.Proofs.Constraint.PropagationAlone
import ProblemSolving.Proofs.StateSpace.Forest
import ProblemSolving.Proofs.Planning.OrderedFacts
