import AlgebraicEffects.Session
import AlgebraicEffects.Proofs.Replay.Direct
import AlgebraicEffects.Proofs.Memory.Turns
import AlgebraicEffects.Proofs.Memory.Replays
import AlgebraicEffects.Proofs.Memory.Keeping
import AlgebraicEffects.Proofs.Memory.Evaluation
import AlgebraicEffects.Proofs.Memory.Faithful
import AlgebraicEffects.Proofs.Memory.Branches
import AlgebraicEffects.Proofs.Memory.Once
import AlgebraicEffects.Proofs.Memory.Shared
import AlgebraicEffects.Proofs.Memory.Repeating
import AlgebraicEffects.Proofs.Memory.Delegation
import AlgebraicEffects.Proofs.State.Threading
import AlgebraicEffects.Proofs.Queue.Histories
import AlgebraicEffects.Proofs.Flows.Evaluations
import AlgebraicEffects.Proofs.Choice.Search
import AlgebraicEffects.Proofs.Schedule.Completed
import AlgebraicEffects.Proofs.Queue.Clocks
import AlgebraicEffects.Proofs.Runners.Idle
import AlgebraicEffects.Proofs.Leftover.Reported
import AlgebraicEffects.Proofs.Agreement.Hosts
import AlgebraicEffects.Proofs.Stacks.Distributing
import AlgebraicEffects.Proofs.Stacks.Performing
import AlgebraicEffects.Proofs.Stacks.Order
import AlgebraicEffects.Proofs.Stacks.Noting
import AlgebraicEffects.Proofs.Stacks.Runners
import AlgebraicEffects.Proofs.Nesting.Order
import AlgebraicEffects.Proofs.Limits.Shortening
import AlgebraicEffects.Proofs.Raising.Counterparts
import AlgebraicEffects.Proofs.Memory.Failing
import AlgebraicEffects.Proofs.Output.Orders
import AlgebraicEffects.Proofs.Comparing.Residues
import AlgebraicEffects.Proofs.Comparing.Grafting
import AlgebraicEffects.Proofs.Comparing.Attaching
import AlgebraicEffects.Proofs.Comparing.Hosting
import AlgebraicEffects.Proofs.Comparing.Transparent
import AlgebraicEffects.Proofs.Nesting.Logs
import AlgebraicEffects.Proofs.Choice.Extremes
import AlgebraicEffects.Proofs.Choice.Triangles
import AlgebraicEffects.Proofs.Replay.Divergence
import AlgebraicEffects.Proofs.Loop.Histories
import AlgebraicEffects.Proofs.State.Projecting
import AlgebraicEffects.Proofs.Comparing.Traversing
