/-
# Phase statuses and generation counters

A phase is authored in generations.  The counter of a phase only grows, also
when an earlier checkpoint is restored: `generationHighWatermark` remembers
what was given out.
-/
import SingularityFlow.Errors

namespace SingularityFlow

open Ecma

inductive PhaseStatus where
  | notStarted | inProgress | awaitingApproval | approved | skipped
deriving DecidableEq

namespace Story

/-- `Number.MAX_SAFE_INTEGER`. -/
def maximumSafeInteger : Nat := 2 ^ 53 - 1

/-- The counter to give out next; an absent counter is 0. -/
def nextPhaseGeneration (generation generationHighWatermark : Option Nat) :
    Except Failure Nat := do
  let watermark := max (generation.getD 0) (generationHighWatermark.getD 0)
  failIf (maximumSafeInteger ≤ watermark)
    (.singularityFlow (js "Phase generation counters must be nonnegative safe integers with room for a new generation.")
      (some (js "GENERATION_COUNTER_INVALID")))
  .ok (watermark + 1)

end Story

end SingularityFlow
