import Breakthrough.Agent.Greedy
import Breakthrough.Agent.Random
import Breakthrough.Arena
import Breakthrough.Bitboard
import Breakthrough.Color
import Breakthrough.CommandLine
import Breakthrough.Decimal.Binary
import Breakthrough.Decimal.Fixed
import Breakthrough.Decimal.Reading
import Breakthrough.Decimal.Shortest
import Breakthrough.Error
import Breakthrough.Evaluation
import Breakthrough.Failure
import Breakthrough.Files
import Breakthrough.Hashing
import Breakthrough.History
import Breakthrough.Json.Parser
import Breakthrough.Json.Printer
import Breakthrough.Json.Record
import Breakthrough.Json.Value
import Breakthrough.Log
import Breakthrough.Main
import Breakthrough.Move
import Breakthrough.Player
import Breakthrough.Playout
import Breakthrough.Position.Basic
import Breakthrough.Position.Diagram
import Breakthrough.Position.InPlace
import Breakthrough.Position.Moves
import Breakthrough.Position.Play
import Breakthrough.Program
import Breakthrough.Proofs.Agents
import Breakthrough.Proofs.Arena
import Breakthrough.Proofs.Arrivals
import Breakthrough.Proofs.Bitboard
import Breakthrough.Proofs.Budget
import Breakthrough.Proofs.Chance
import Breakthrough.Proofs.Conservation
import Breakthrough.Proofs.Consistency
import Breakthrough.Proofs.Counters
import Breakthrough.Proofs.Coverage
import Breakthrough.Proofs.Credit
import Breakthrough.Proofs.Decisions
import Breakthrough.Proofs.Descent
import Breakthrough.Proofs.Diagram
import Breakthrough.Proofs.Doubles
import Breakthrough.Proofs.Draining
import Breakthrough.Proofs.Draws
import Breakthrough.Proofs.DumpText
import Breakthrough.Proofs.Dumps
import Breakthrough.Proofs.Endings
import Breakthrough.Proofs.Exact
import Breakthrough.Proofs.Expansion
import Breakthrough.Proofs.Export
import Breakthrough.Proofs.Files
import Breakthrough.Proofs.Games
import Breakthrough.Proofs.Geometry
import Breakthrough.Proofs.Graph
import Breakthrough.Proofs.Growth
import Breakthrough.Proofs.Hashing
import Breakthrough.Proofs.InPlace
import Breakthrough.Proofs.Input
import Breakthrough.Proofs.JsonText
import Breakthrough.Proofs.Leader
import Breakthrough.Proofs.Line
import Breakthrough.Proofs.Lockstep
import Breakthrough.Proofs.Material
import Breakthrough.Proofs.MoveText
import Breakthrough.Proofs.Numerals
import Breakthrough.Proofs.OneIteration
import Breakthrough.Proofs.Playout
import Breakthrough.Proofs.Ranges
import Breakthrough.Proofs.Referee
import Breakthrough.Proofs.Restore
import Breakthrough.Proofs.Rewards
import Breakthrough.Proofs.Rewind
import Breakthrough.Proofs.Rules
import Breakthrough.Proofs.Runners
import Breakthrough.Proofs.Runs
import Breakthrough.Proofs.Session
import Breakthrough.Proofs.Snapshots
import Breakthrough.Proofs.Soundness
import Breakthrough.Proofs.Symmetry
import Breakthrough.Proofs.Tally
import Breakthrough.Proofs.Threats
import Breakthrough.Proofs.TreeGame
import Breakthrough.Proofs.Turns
import Breakthrough.Random.ChaCha
import Breakthrough.Random.Draw
import Breakthrough.Random.Rejection
import Breakthrough.Random.Source
import Breakthrough.Score
import Breakthrough.Search.Engine
import Breakthrough.Search.Export
import Breakthrough.Search.Graph
import Breakthrough.Search.Rollout
import Breakthrough.Session
import Breakthrough.Settings
import Breakthrough.Square
import Breakthrough.Text.Blank
import Breakthrough.Text.Hex
import Breakthrough.Text.Quoted
import Breakthrough.Text.Unseen
import Breakthrough.TreeFile
import Breakthrough.TreeGame
import Breakthrough.Turn
