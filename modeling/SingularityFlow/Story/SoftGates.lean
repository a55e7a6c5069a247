/-
# Soft gates: moves by a confirmed override

A gate of the sequence that is soft lets a person continue after a
confirmation: `evaluateSequence` says which move the request needs, and
`applySequenceDecision` makes it.  The moves have code of their own in
`sequence.mjs`, beside the transitions of `Lifecycle`.

The confirmation and the audit record of the override are left out, and so is
the text of a refusal.  A closed Story records its final evaluation, and may
be reopened.
-/
import SingularityFlow.Story.Moves

namespace SingularityFlow

open Ecma Approval

/-- The word that is stored for a status. -/
def PhaseStatus.text : PhaseStatus → Text
  | .notStarted => js "not_started"
  | .inProgress => js "in_progress"
  | .awaitingApproval => js "awaiting_approval"
  | .approved => js "approved"
  | .skipped => js "skipped"

namespace Story

/-! ## The Story that is stored -/

/-- The final evaluation, recorded as `workflow.completion`. -/
structure Verdict where
  inputSha256 : Text
  evaluatedAt : Text
deriving DecidableEq

structure Aggregate where
  workItem : Text
  workflow : Workflow
  completion : Option Verdict

/-- `workflow.phases[id]` of a plain object.  An inherited value is found too;
it has no id and no status. -/
def Workflow.lookup (workflow : Workflow) (id : Text) : Option (Option Phase) :=
  match workflow.phase id with
  | some phase => some (some phase)
  | none => if id ∈ inheritedNames then some none else none

/-- The current phase; only ids of phases are ever recorded as current. -/
def activePhase (workflow : Workflow) : Option Phase :=
  (workflow.currentPhase.filter (· ≠ [])).bind workflow.phase

/-- The last phase that is not skipped, else the last one. -/
def completionPhaseOf (workflow : Workflow) : Option Phase :=
  ((workflow.phases.reverse.find? (·.status ≠ .skipped)).or workflow.phases.getLast?).filter
    (·.id ≠ [])

/-! ## Decisions -/

inductive SequenceGate where
  | decision | completion | currentPhase | phaseStatus
deriving DecidableEq

inductive SequenceEffect where
  | switch
  | status (allowedStatuses : List PhaseStatus)
deriving DecidableEq

/-- A request that is not allowed as it is.  Without an effect it is invalid;
without a target, the target is undefined. -/
structure SequenceDecision where
  gate : SequenceGate
  targetPhase : Option Text
  effect : Option SequenceEffect
  reason : Text
deriving DecidableEq

/-- The id of the target as it is printed, and as it is looked up. -/
def SequenceDecision.target (decision : SequenceDecision) : Text :=
  decision.targetPhase.getD (js "undefined")

def phaseText (phase : Option Phase) : Text := (phase.map (·.id)).getD (js "undefined")

def statusText (phase : Option Phase) : Text :=
  (phase.map (·.status.text)).getD (js "undefined")

/-- Where a Story without a current phase continues. -/
def reopenTarget (workflow : Workflow) : Option Text → Option (Option Phase)
  | some id => workflow.lookup id
  | none => (completionPhaseOf workflow).map some

/-- What a request of a phase in one of some statuses needs: the id of the
phase when it is allowed. -/
def evaluateSequence (story : Aggregate) (requestedPhase : Option Text)
    (allowedStatuses : List PhaseStatus) : Except SequenceDecision Text :=
  let workflow := story.workflow
  let requested := requestedPhase.filter (· ≠ [])
  match workflow.pendingDecision with
  | some pending => .error ⟨.decision, some pending.after, none,
      js "The Story is waiting for a decision: '" ++ pending.label
        ++ js "'. Choose with singularity-flow decision choose " ++ story.workItem ++ js "."⟩
  | none =>
      match activePhase workflow with
      | none =>
          match reopenTarget workflow requested with
          | some target => .error ⟨.completion, target.map (·.id), some .switch,
              js "The completed workflow must be reopened at '" ++ phaseText target
                ++ js "' to continue."⟩
          | none => .error ⟨.completion, requestedPhase, none,
              js "No valid phase is available to reopen."⟩
      | some phase =>
          match requested.filter (· ≠ phase.id) with
          | some id =>
              match workflow.lookup id with
              | some found => .error ⟨.currentPhase, some id, some .switch,
                  js "Only the current phase '" ++ phase.id ++ js "' may change; '" ++ id
                    ++ js "' is " ++ statusText found ++ js "."⟩
              | none => .error ⟨.currentPhase, some id, none,
                  js "'" ++ id ++ js "' is not part of this workflow."⟩
          | none =>
              if phase.status ∈ allowedStatuses then .ok phase.id
              else .error ⟨.phaseStatus, some phase.id, some (.status allowedStatuses),
                js "This action requires status "
                  ++ join (js " or ") (allowedStatuses.map (·.text)) ++ js ", but '" ++ phase.id
                  ++ js "' is " ++ phase.status.text ++ js "."⟩

/-! ## Moves -/

def invalidateApprovals (now : Text) (phase : Phase) : Phase :=
  { phase with
    approvals := phase.approvals.map fun approval =>
      if approval.invalidatedAt = none then { approval with invalidatedAt := some now }
      else approval }

/-- `['in_progress', 'awaiting_approval'].includes(status)`. -/
def Phase.isActive (phase : Phase) : Bool :=
  phase.status = .inProgress ∨ phase.status = .awaitingApproval

/-- What `switchCurrentPhase` does to the phase at an index, when the target
is at `targetIndex`; there is no such index for a value that is no phase. -/
def switchPhase (target : Option Phase) (targetIndex : Option Nat) (now : Text) (index : Nat)
    (candidate : Phase) : Phase :=
  -- the target leaves the loop body here, before its approvals are looked at
  if target.any (candidate.id = ·.id) then
    { candidate with status := .inProgress, decisionInputs := none }
  else
    let moved := if candidate.isActive = true ∨ targetIndex.all (· < index) = true then
        { candidate with status := .notStarted, decisionInputs := none }
      else candidate
    if targetIndex.all (· ≤ index) = true then invalidateApprovals now moved else moved

/-- `phaseOrder.indexOf(id)`, when it is not -1. -/
def orderIndex (order : List Text) (id : Text) : Option Nat :=
  if id ∈ order then some (order.idxOf id) else none

def switchCurrentPhase (workflow : Workflow) (target : Option Phase) (now : Text) : Workflow :=
  let targetIndex := target.bind fun phase => orderIndex workflow.phaseOrder phase.id
  { workflow with
    phases := workflow.phases.mapIdx (switchPhase target targetIndex now)
    pendingDecision := none
    currentPhase := target.map (·.id)
    status := .inProgress }

/-- The phase with the first of the statuses, when it is one to work in. -/
def reconcilePhase (allowedStatuses : List PhaseStatus) (now : Text) (phase : Phase) : Phase :=
  match allowedStatuses.head? with
  | some .inProgress => { invalidateApprovals now phase with status := .inProgress }
  | some .awaitingApproval => { phase with status := .awaitingApproval }
  | _ => phase

def reconcileStatus (workflow : Workflow) (target : Option Phase)
    (allowedStatuses : List PhaseStatus) (now : Text) : Workflow :=
  let reconciled := match target with
    | some phase => workflow.update phase.id (reconcilePhase allowedStatuses now)
    | none => workflow
  { reconciled with currentPhase := target.map (·.id), status := .inProgress }

/-- `none` when there is no target to move to, and the decision is refused. -/
def applySequenceDecision (story : Aggregate) (decision : SequenceDecision) (now : Text) :
    Option Aggregate :=
  (story.workflow.lookup decision.target).map fun target =>
    match decision.effect with
    | some .switch => { story with workflow := switchCurrentPhase story.workflow target now }
    | some (.status allowedStatuses) =>
        { story with workflow := reconcileStatus story.workflow target allowedStatuses now }
    | none => story

/-! ## Operations -/

variable (tables : UnicodeTables)

/-- A decision that is recorded with a phase, such as a rejection. -/
def recordDecision (workflow : Workflow) (phaseId : Text) (decision : ApprovalRecord) : Workflow :=
  workflow.update phaseId fun phase => { phase with approvals := phase.approvals ++ [decision] }

/-- `reopenWorkflow`, by someone who may reopen at the target. -/
def reopenWorkflow (story : Aggregate) (target : Option Text) (decision : ApprovalRecord) :
    Except Failure Aggregate := do
  let workflow := story.workflow
  failIf (workflow.status ≠ .closed ∨ workflow.currentPhase ≠ none)
    (refuse (js "Story '" ++ story.workItem
      ++ js "' is not closed; use reject while a phase is awaiting approval."))
  match completionPhaseOf workflow with
  | none => .error (.typeError (js "Cannot read properties of null (reading 'approvalPolicy')"))
  | some completionPhase => do
      let targetId := target.getD completionPhase.id
      failIf (targetId ∉ workflow.phaseOrder)
        (refuse (js "Unknown reopen target '" ++ targetId ++ js "'."))
      let reopened ← reopenPhaseRange workflow targetId decision.atTime true
      .ok { story with
        workflow := recordDecision reopened completionPhase.id { decision with decision := .reopened }
        completion := none }

/-- An operation on a stored Story. -/
inductive Operation where
  | lifecycle (action : Action)
  | reject (target : Option Text) (unsubmitted : Bool) (decision : ApprovalRecord)
  | reopen (target : Option Text) (decision : ApprovalRecord)
  | finalize (verdict : Verdict)
  | soft (requestedPhase : Option Text) (allowedStatuses : List PhaseStatus) (now : Text)

def refuseSequence : Failure := refuse (js "Sequence gate.")

def operate (story : Aggregate) : Operation → Except Failure Aggregate
  | .lifecycle action => do
      let workflow ← step tables story.workflow action
      -- rework deletes the evaluation of the Story that finishes again
      let reworked := (action.event tables story.workflow).target.isSome
      .ok { story with workflow, completion := if reworked then none else story.completion }
  | .reject target unsubmitted decision => do
      let phase ← currentIn story.workflow (if unsubmitted then .inProgress else .awaitingApproval)
      let workflow ← rejectPhase story.workflow target unsubmitted decision.atTime
      .ok { story with
        workflow := recordDecision workflow phase.id { decision with decision := .rejected }
        completion := none }
  | .reopen target decision => reopenWorkflow story target decision
  | .finalize verdict => do
      failIf (story.workflow.status ≠ .closed) (refuse (js "Story is not complete."))
      .ok { story with completion := some verdict }
  | .soft requestedPhase allowedStatuses now =>
      match evaluateSequence story requestedPhase allowedStatuses with
      | .ok _ => .ok story
      | .error decision =>
          match decision.effect.bind fun _ => applySequenceDecision story decision now with
          | none => .error refuseSequence
          | some next => .ok next

/-- A Story as it is stored when it starts. -/
def storeStory (workItem : Text) (definition : Definition) : Aggregate :=
  ⟨workItem, startStory definition, none⟩

end Story

end SingularityFlow
