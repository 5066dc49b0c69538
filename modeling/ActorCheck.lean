import ActorCheck.Control.Explore
import ActorCheck.Data.Stub
import ActorCheck.Flow.Path
import ActorCheck.Program.Draft
import ActorCheck.Proofs.Control.Session
import ActorCheck.Refine.Refinement
import ActorCheck.Relation.Memo
import ActorCheck.Solver.Interval
import ActorCheck.Solver.Scripted
import ActorCheck.Proofs.Control.StepCases
import ActorCheck.Proofs.Control.Links
import ActorCheck.Proofs.Control.Statements
import ActorCheck.Proofs.Control.WakingUp
import ActorCheck.Proofs.Control.Conditions
import ActorCheck.Proofs.Control.Turns
import ActorCheck.Proofs.Control.WakeUps
import ActorCheck.Proofs.Control.Faults
import ActorCheck.Proofs.Control.Effects
import ActorCheck.Proofs.Control.MidStep
import ActorCheck.Proofs.Control.TurnChecks
import ActorCheck.Proofs.Control.NoFaults
import ActorCheck.Proofs.Term.Alignment
import ActorCheck.Proofs.Solver.Emptiness
import ActorCheck.Proofs.Solver.Fragment
import ActorCheck.Proofs.Solver.Consistency
import ActorCheck.Proofs.Solver.Calls
import ActorCheck.Proofs.Solver.Decision
import ActorCheck.Proofs.Solver.Projection
import ActorCheck.Proofs.Solver.Interpolation
import ActorCheck.Proofs.Refine.Traces
import ActorCheck.Proofs.Refine.Balance
import ActorCheck.Proofs.Refine.Feasibility
import ActorCheck.Proofs.Control.Priority
import ActorCheck.Proofs.Control.Identities
import ActorCheck.Proofs.Control.Courses
import ActorCheck.Proofs.Control.RoundRobin
import ActorCheck.Proofs.Control.Arguments
import ActorCheck.Proofs.Control.TimedWaits
import ActorCheck.Proofs.Control.Standstill
import ActorCheck.Proofs.Control.SetBacks
import ActorCheck.Proofs.Refine.History
import ActorCheck.Proofs.Refine.Slot
import ActorCheck.Proofs.Control.Releases
import ActorCheck.Proofs.Refine.Learning
import ActorCheck.Proofs.Control.DataSteps
import ActorCheck.Proofs.Program.Lines
import ActorCheck.Proofs.Control.Lanes
import ActorCheck.Proofs.Control.Rounds
import ActorCheck.Proofs.Flow.Acyclic
import ActorCheck.Proofs.Data.Reached
import ActorCheck.Proofs.Control.Agreement
import ActorCheck.Proofs.Program.Registry
import ActorCheck.Proofs.Control.Passages
import ActorCheck.Proofs.Control.Phases
import ActorCheck.Proofs.Control.WaitOrder
import ActorCheck.Proofs.Control.Rosters
import ActorCheck.Proofs.Control.Failures
import ActorCheck.Proofs.Control.Bootstrap
import ActorCheck.Proofs.Control.Frames
import ActorCheck.Proofs.Control.CallStacks
import ActorCheck.Proofs.Control.Changes
import ActorCheck.Proofs.Control.AtomicBlocks
import ActorCheck.Proofs.Control.Bystanders
import ActorCheck.Proofs.Relation.Words
import ActorCheck.Proofs.Flow.NaturalLoops
import ActorCheck.Proofs.Data.Endings
import ActorCheck.Proofs.Term.Inference
import ActorCheck.Proofs.Data.Locals
import ActorCheck.Proofs.Program.Scoping
import ActorCheck.Proofs.Flow.Renumbering
import ActorCheck.Proofs.Data.Ways
import ActorCheck.Proofs.Data.Sequences
import ActorCheck.Proofs.Data.Shortcuts
import ActorCheck.Proofs.Control.Election
import ActorCheck.Proofs.Solver.Bookkeeping
import ActorCheck.Proofs.Refine.Restarts
import ActorCheck.Proofs.Refine.Forest
import ActorCheck.Proofs.Term.PrefixSums
import ActorCheck.Proofs.Data.Exactness
import ActorCheck.Proofs.Data.Verdicts
import ActorCheck.Proofs.Program.Interning
import ActorCheck.Proofs.Flow.Reversal
import ActorCheck.Proofs.Term.ZeroOffsets
import ActorCheck.Proofs.Term.Readability
import ActorCheck.Proofs.Relation.Extensions
import ActorCheck.Proofs.Relation.Constructions
import ActorCheck.Proofs.Relation.Compositions
import ActorCheck.Proofs.Control.WaitScopes
import ActorCheck.Proofs.Relation.Renaming
import ActorCheck.Proofs.Term.Spellings
import ActorCheck.Proofs.Control.LoopStacks
