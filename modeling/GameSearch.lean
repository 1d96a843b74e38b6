import GameSearch.Agent.Basic
import GameSearch.Agent.Mcts
import GameSearch.Agent.MultiObserver
import GameSearch.Agent.Player
import GameSearch.Agent.Random
import GameSearch.Agent.Scripted
import GameSearch.Agent.Settings
import GameSearch.Agent.SingleObserver
import GameSearch.Agent.Tree
import GameSearch.Binary64
import GameSearch.Chance.Dice
import GameSearch.Chance.Twister
import GameSearch.Clock.Basic
import GameSearch.Clock.Settings
import GameSearch.CommandLine.Basic
import GameSearch.CommandLine.Program
import GameSearch.CommandLine.Settings
import GameSearch.Data.Deque
import GameSearch.Data.SortedSet
import GameSearch.Decimal.Binary
import GameSearch.Decimal.Fixed
import GameSearch.Decimal.Reader
import GameSearch.Decimal.Shortest
import GameSearch.Evidence
import GameSearch.Fault
import GameSearch.Game.Basic
import GameSearch.Game.Corridor
import GameSearch.Game.Development
import GameSearch.Game.Minipoker
import GameSearch.Game.Play
import GameSearch.Game.Registry
import GameSearch.Game.Table
import GameSearch.Game.Tictactoe
import GameSearch.Host
import GameSearch.Hosted
import GameSearch.Journal
import GameSearch.Main
import GameSearch.Match
import GameSearch.Proofs.Action
import GameSearch.Proofs.Agent.Accounting
import GameSearch.Proofs.Agent.BeliefMoves
import GameSearch.Proofs.Agent.Deliberation
import GameSearch.Proofs.Agent.Descent
import GameSearch.Proofs.Agent.Determinization
import GameSearch.Proofs.Agent.Exploration
import GameSearch.Proofs.Agent.Grove
import GameSearch.Proofs.Agent.JointAccounting
import GameSearch.Proofs.Agent.JointDescent
import GameSearch.Proofs.Agent.JointRooting
import GameSearch.Proofs.Agent.Ledger
import GameSearch.Proofs.Agent.LegalMoves
import GameSearch.Proofs.Agent.Location
import GameSearch.Proofs.Agent.Lockstep
import GameSearch.Proofs.Agent.Mcts
import GameSearch.Proofs.Agent.MultiObserver
import GameSearch.Proofs.Agent.PerfectPlay
import GameSearch.Proofs.Agent.PresentBelief
import GameSearch.Proofs.Agent.RealPlay
import GameSearch.Proofs.Agent.Requests
import GameSearch.Proofs.Agent.SharedWorlds
import GameSearch.Proofs.Agent.Simulation
import GameSearch.Proofs.Agent.SingleObserver
import GameSearch.Proofs.Agent.SingleTree
import GameSearch.Proofs.Agent.Statistics
import GameSearch.Proofs.Agent.Succession
import GameSearch.Proofs.Agent.Trees
import GameSearch.Proofs.Agent.Twins
import GameSearch.Proofs.Alike
import GameSearch.Proofs.Answers
import GameSearch.Proofs.Arena
import GameSearch.Proofs.Belief.Agreement
import GameSearch.Proofs.Belief.Arrival
import GameSearch.Proofs.Belief.Development
import GameSearch.Proofs.Belief.Expansion
import GameSearch.Proofs.Belief.Frontier
import GameSearch.Proofs.Belief.Interruption
import GameSearch.Proofs.Belief.LastStates
import GameSearch.Proofs.Belief.Narrowing
import GameSearch.Proofs.Belief.Observation
import GameSearch.Proofs.Belief.Place
import GameSearch.Proofs.Belief.Repetition
import GameSearch.Proofs.Belief.Representation
import GameSearch.Proofs.Belief.Rerooting
import GameSearch.Proofs.Belief.Sampling
import GameSearch.Proofs.Belief.Soundness
import GameSearch.Proofs.Belief.Tending
import GameSearch.Proofs.Belief.Tracking
import GameSearch.Proofs.Belief.Weathering
import GameSearch.Proofs.ByRole
import GameSearch.Proofs.Cancellation
import GameSearch.Proofs.Choice
import GameSearch.Proofs.Clock.Budget
import GameSearch.Proofs.Clock.Charging
import GameSearch.Proofs.Clock.Grammar
import GameSearch.Proofs.Control
import GameSearch.Proofs.Corridor.Board
import GameSearch.Proofs.Corridor.Path
import GameSearch.Proofs.Corridor.Positions
import GameSearch.Proofs.Corridor.Search
import GameSearch.Proofs.Corridor.Secrecy
import GameSearch.Proofs.Corridor.Sight
import GameSearch.Proofs.Developments
import GameSearch.Proofs.Dice
import GameSearch.Proofs.Enumeration
import GameSearch.Proofs.Evidence
import GameSearch.Proofs.Exact
import GameSearch.Proofs.FactSets
import GameSearch.Proofs.Frame
import GameSearch.Proofs.Gathering
import GameSearch.Proofs.Match.Calls
import GameSearch.Proofs.Match.Lifecycle
import GameSearch.Proofs.Match.Playthrough
import GameSearch.Proofs.Match.Recording
import GameSearch.Proofs.Match.Transcript
import GameSearch.Proofs.Options
import GameSearch.Proofs.Outcome
import GameSearch.Proofs.Perfect.Balance
import GameSearch.Proofs.Perfect.Chart
import GameSearch.Proofs.Perfect.Following
import GameSearch.Proofs.Perfect.Retracing
import GameSearch.Proofs.Perfect.Turns
import GameSearch.Proofs.Playing
import GameSearch.Proofs.Playout.Line
import GameSearch.Proofs.Playout.ZeroSum
import GameSearch.Proofs.Queries
import GameSearch.Proofs.Ranking
import GameSearch.Proofs.Recollection
import GameSearch.Proofs.Refereeing
import GameSearch.Proofs.Sight
import GameSearch.Proofs.Solver.Chance
import GameSearch.Proofs.Solver.Completion
import GameSearch.Proofs.Solver.Correctness
import GameSearch.Proofs.Solver.Soundness
import GameSearch.Proofs.Solver.Value
import GameSearch.Proofs.Solver.Verdict
import GameSearch.Proofs.StateSet
import GameSearch.Proofs.Sweep
import GameSearch.Proofs.Terms
import GameSearch.Proofs.Terms.Decoding
import GameSearch.Proofs.Terms.Trees
import GameSearch.Proofs.Terms.WellFormed
import GameSearch.Proofs.Transitions
import GameSearch.Proofs.Tree.Credit
import GameSearch.Proofs.Tree.Developing
import GameSearch.Proofs.Tree.Growth
import GameSearch.Proofs.Tree.LostNumbers
import GameSearch.Proofs.Tree.Pruning
import GameSearch.Proofs.Tree.Recycling
import GameSearch.Proofs.Tree.Rooting
import GameSearch.Proofs.Tree.Shape
import GameSearch.Proofs.Winners
import GameSearch.Scalar
import GameSearch.Search.Evaluator
import GameSearch.Search.Playout
import GameSearch.Search.Repeater
import GameSearch.Search.Selector
import GameSearch.Search.Solver
import GameSearch.Search.Valuation
import GameSearch.Series
import GameSearch.Session
import GameSearch.State
import GameSearch.Term
import GameSearch.Text.Blank
import GameSearch.Text.Digest
import GameSearch.Text.Listing
import GameSearch.Text.Quoted
import GameSearch.Text.Terminated
import GameSearch.Tree.Arena
import GameSearch.Tree.Belief
import GameSearch.Tree.Develop
import GameSearch.Tree.Node
import GameSearch.Tree.Outline
import GameSearch.Tree.Perfect
import GameSearch.Tree.Search
import GameSearch.Turn
