/-
# The lifecycle of a Story

The transitions of `lifecycle-transitions.mjs` and `phase-retention.mjs`, and
the operations that apply them: a phase is submitted and reviewed, completes
and is followed by what its decision chose, a person answers a question, and
work is sent back.

The gates that an operation passes before it changes the phases (evidence,
authority, publication) are not modelled, so the runs here include all runs
of the program.  Whether what an approval decided over is unchanged since is
a question to the repository; its answers are a parameter.
-/
import SingularityFlow.Story.Outcomes

namespace SingularityFlow

open Ecma Approval

namespace Story

variable (tables : UnicodeTables)

/-! ## Transitions -/

def transitionInvalid (message : Text) : Failure :=
  .singularityFlow message (some (js "LIFECYCLE_TRANSITION_INVALID"))

def phaseIndex (workflow : Workflow) (phaseId : Text) : Except Failure Nat := do
  failIf (phaseId ∉ workflow.phaseOrder ∨ ¬ workflow.phaseOrder.Nodup)
    (transitionInvalid (js "Lifecycle transition requires an existing selected phase."))
  .ok (workflow.phaseOrder.idxOf phaseId)

/-- Write one phase. -/
def Workflow.update (workflow : Workflow) (id : Text) (f : Phase → Phase) : Workflow :=
  { workflow with phases := workflow.phases.map fun phase => if phase.id = id then f phase else phase }

/-- A phase that keeps an approval it has: one that an amendment preserves,
or that rework retained. -/
def keepsApproval (amendment : Option SkillAmendment) (candidate : Phase) : Bool :=
  candidate.status = .approved && (amendment.any (candidate.id ∈ ·.preservedPhaseIds)
    || candidate.retention = some candidate.generation)

def nextPhaseAfterSkillAmendment (workflow : Workflow) (phase : Phase) :
    Except Failure (Option Phase) := do
  let start ← phaseIndex workflow phase.id
  let amendment := workflow.definition.skillVersionAmendments.reverse.find? fun entry =>
    entry.approved && phase.id ∈ entry.affectedPhaseIds
  .ok ((workflow.phases.drop (start + 1)).find? (!keepsApproval amendment ·))

def skipPhaseRange (workflow : Workflow) (phaseIds : List Text) : Workflow :=
  { workflow with phases := workflow.phases.map fun phase =>
      if phase.id ∈ phaseIds ∧ phase.status = .notStarted then { phase with status := .skipped }
      else phase }

/-- The phase that is reached starts, or the Story is closed. -/
def arrive (workflow : Workflow) : Option Phase → Workflow
  | some target =>
      { workflow.update target.id fun phase => { phase with status := .inProgress } with
        currentPhase := some target.id }
  | none => { workflow with currentPhase := none, status := .closed }

def advanceCompletedPhase (workflow : Workflow) (phase : Phase) (outcome : Option Outcome)
    (pending : Option PendingDecision) : Except Failure Workflow :=
  match outcome with
  | none => do
      let upcoming ← nextPhaseAfterSkillAmendment workflow phase
      .ok (arrive { workflow with pendingDecision := none } upcoming)
  | some outcome =>
      match outcome.kind with
      | .loop => .error (transitionInvalid
          (js "A decision that goes back is applied as rework, not as an advance."))
      | .pause _ =>
          match pending with
          | none => .error (transitionInvalid (js "A paused decision needs its pending record."))
          | some question => .ok { workflow with
              pendingDecision := some question
              currentPhase := some phase.id
              status := .inProgress }
      | .forward =>
          let skipped := skipPhaseRange { workflow with pendingDecision := none } outcome.skipped
          match outcome.target.bind skipped.phase with
          | none => .error (transitionInvalid
              (js "A decision may only skip ahead to a later phase."))
          | some target => do
              let index ← phaseIndex workflow phase.id
              failIf (workflow.phaseOrder.idxOf target.id ≤ index)
                (transitionInvalid (js "A decision may only skip ahead to a later phase."))
              .ok (arrive skipped (some target))
      | .end =>
          .ok (arrive (skipPhaseRange { workflow with pendingDecision := none } outcome.skipped)
            none)
      | .next | .unknown => do
          let upcoming ← nextPhaseAfterSkillAmendment workflow phase
          .ok (arrive { workflow with pendingDecision := none } upcoming)

/-! ## Rework -/

/-- `clearDecisionState` and the reset around it. -/
def resetPhaseForRework (phase : Phase) (now : Text) (status : PhaseStatus) (retainable : Bool) :
    Phase :=
  { phase with
    approvals := phase.approvals.map fun approval =>
      if approval.invalidatedAt = none then { approval with invalidatedAt := some now }
      else approval
    status
    reworkRevalidation := some ⟨phase.generation, now, retainable && phase.status = .approved⟩
    retention := none
    decisionInputs := none }

/-- The phases from the target on, reset. -/
def resetRange (now : Text) (retain : Bool) : List Phase → List Phase
  | [] => []
  | target :: rest =>
      resetPhaseForRework target now .inProgress false
        :: rest.map fun phase => resetPhaseForRework phase now .notStarted retain

def resetPhaseRangeForRework (workflow : Workflow) (targetId now : Text) (retain : Bool) :
    Except Failure Workflow := do
  let targetIndex ← phaseIndex workflow targetId
  let affectedIds := workflow.phaseOrder.drop targetIndex
  .ok { workflow with
    phases := workflow.phases.take targetIndex
      ++ resetRange now retain (workflow.phases.drop targetIndex)
    pendingDecision := workflow.pendingDecision.filter fun pending => pending.after ∉ affectedIds
    currentPhase := some targetId
    status := .inProgress }

/-- `reopenPhaseRange`; what the target records of who sent it back is left out. -/
def reopenPhaseRange (workflow : Workflow) (targetId now : Text) (retain : Bool) :
    Except Failure Workflow :=
  resetPhaseRangeForRework workflow targetId now retain

def loopBackForDecision (workflow : Workflow) (phase : Phase) (outcome : Outcome) (now : Text) :
    Except Failure Workflow := do
  let targetId := outcome.target.getD []
  failIf (targetId ∉ workflow.phaseOrder
      ∨ workflow.phaseOrder.idxOf phase.id < workflow.phaseOrder.idxOf targetId)
    (transitionInvalid (js "Decision '" ++ outcome.label ++ js "' can only go back to '" ++ phase.id
      ++ js "' or an earlier phase."))
  reopenPhaseRange (countRound workflow outcome.decision) targetId now false

/-! ## Retention -/

/-- The approvals that a reset invalidated and that may be retained. -/
def retainableApprovals (workflow : Workflow) (phase : Phase) : Option (List ApprovalRecord) :=
  match phase.reworkRevalidation with
  | none => none
  | some reset =>
      if reset.retainable = false ∨ phase.status ≠ .notStarted ∨ phase.generation = 0
          ∨ phase.generation ≠ reset.generation
          ∨ (decisionAfter workflow phase.id).isSome = true then none
      else
        let approvals := phase.approvals.filter fun entry => entry.decision = .approved
          ∧ entry.invalidatedAt = some reset.invalidatedAt ∧ entry.generation = phase.generation
        if approvals = [] ∨ approvals.any (·.upstreamSha256 = none) = true then none
        else
          let decided := approvals.map fun entry => { entry with invalidatedAt := none }
          if approvalRequirementsMet tables phase.approvalPolicy decided then some approvals
          else none

def retain (phase : Phase) (approvals : List ApprovalRecord) (now : Text) : Phase :=
  { phase with
    approvals := phase.approvals
      ++ approvals.map (fun approval => { approval with atTime := now, invalidatedAt := none })
    status := .approved
    retention := some phase.generation
    reworkRevalidation := none }

/-- The loop over the phases that follow the completed one. -/
def retainPhases (workflow : Workflow) (unchanged : Text → Bool) (now : Text) :
    List Phase → List Phase
  | [] => []
  | phase :: rest =>
      match retainableApprovals tables workflow phase with
      | none => phase :: rest
      | some approvals =>
          if unchanged phase.id then
            retain phase approvals now :: retainPhases workflow unchanged now rest
          else phase :: rest

/-- `unchanged` answers whether a phase's upstream references, artifacts and
inputs are as its approvals saw them. -/
def retainUnchangedPhases (workflow : Workflow) (unchanged : Text → Bool) (now : Text)
    (completed : Phase) : Workflow :=
  let position := positionAfter workflow.phaseOrder completed.id
  if position = 0 then workflow
  else { workflow with
    phases := workflow.phases.take position
      ++ retainPhases tables workflow unchanged now (workflow.phases.drop position) }

/-! ## Completion -/

def applyCompletionOutcome (workflow : Workflow) (phase : Phase) (outcome : Option Outcome) :
    Except Failure Workflow :=
  match outcome with
  | none => advanceCompletedPhase workflow phase none none
  | some outcome =>
      match outcome.kind with
      | .loop => .error (transitionInvalid (js "Decision '" ++ outcome.label
          ++ js "' can send work back only when a person approves '" ++ phase.id ++ js "'."))
      | .pause reason => advanceCompletedPhase workflow phase (some outcome)
          ((decisionAfter workflow phase.id).map fun decision =>
            pendingDecisionRecord phase decision outcome reason)
      | _ => advanceCompletedPhase workflow phase (some outcome) none

/-- What the completion of a phase reads from outside the Story. -/
structure Completion where
  unchanged : Text → Bool
  now : Text

/-- Retain what can be, on the linear path, and apply the outcome. -/
def completePhase (workflow : Workflow) (phase : Phase) (outcome : Option Outcome)
    (completion : Completion) : Except Failure Workflow :=
  let completed := workflow.update phase.id fun _ => phase
  let retained := if outcome.all (·.kind = .next) then
    retainUnchangedPhases tables completed completion.unchanged completion.now phase else completed
  applyCompletionOutcome retained phase outcome

/-! ## Operations -/

/-- The current phase, when it has a status that the operation asks for. -/
def currentIn (workflow : Workflow) (status : PhaseStatus) : Except Failure Phase :=
  match workflow.currentPhase.bind workflow.phase with
  | none => .error (refuse (js "Story has no current phase."))
  | some phase =>
      if phase.status = status then .ok phase
      else .error (refuse (js "Phase '" ++ phase.id ++ js "' has another status."))

structure Submission where
  generation : Nat
  values : Option RecordedValues
  reviewableFailure : Bool
  waiverEligible : Bool
  completion : Completion

/-- `recordSubmittedDecisionInputs`, of values that are normalized. -/
def recordSubmittedDecisionInputs (workflow : Workflow) (phase : Phase)
    (supplied : Option RecordedValues) : Except Failure (Option DecisionInputs) :=
  match decisionFedBy workflow phase.id with
  | none => do
      failIf (supplied.isSome = true) (.singularityFlow (js "Phase '" ++ phase.id
        ++ js "' feeds no decision that records values; submit it without --decision.")
        (some (js "DECISION_INPUT_UNKNOWN")))
      .ok phase.decisionInputs
  | some decision =>
      match supplied with
      | some values => .ok (some ⟨decision.id, values⟩)
      | none =>
          if (recordedDecisionValues phase decision).isSome then .ok phase.decisionInputs
          else .error (.singularityFlow (js "Decision '" ++ decision.label ++ js "' after '"
            ++ phase.id ++ js "' reads values this submission must record. Submit with "
            ++ decisionInputsHint decision ++ js ".") (some (js "DECISION_INPUTS_MISSING")))

def submitPhase (workflow : Workflow) (submission : Submission) : Except Failure Workflow := do
  let phase ← currentIn workflow .inProgress
  let decisionInputs ← recordSubmittedDecisionInputs workflow phase submission.values
  let submitted := { phase with generation := submission.generation, decisionInputs }
  if phase.approvalPolicy.mode = .required then
    .ok (workflow.update phase.id fun _ => { submitted with status := .awaitingApproval })
  else do
    let automaticOutcome ← decisionOutcome workflow submitted
    if submission.reviewableFailure = false ∧ (phase.approvalPolicy.mode = .none
        ∨ submission.waiverEligible = true) then
      completePhase tables workflow { submitted with status := .approved } automaticOutcome
        submission.completion
    else .ok (workflow.update phase.id fun _ => { submitted with status := .awaitingApproval })

/-- `approvePhase`, of a decision that its checks let through. -/
def approvePhase (workflow : Workflow) (decision : ApprovalRecord) (completion : Completion) :
    Except Failure Workflow := do
  let phase ← currentIn workflow .awaitingApproval
  let reviewed := { phase with approvals := phase.approvals ++ [decision] }
  if approvalRequirementsMet tables phase.approvalPolicy reviewed.approvals then do
    let approvalOutcome ← decisionOutcome workflow phase
    let approved := { reviewed with status := .approved }
    match approvalOutcome.filter fun outcome => outcome.kind = .loop with
    | some outcome =>
        loopBackForDecision (workflow.update phase.id fun _ => approved) approved outcome
          completion.now
    | none => completePhase tables workflow approved approvalOutcome completion
  else .ok (workflow.update phase.id fun _ => reviewed)

/-- `decideStory`, by someone who may. -/
def decideStory (workflow : Workflow) (option step : Option Text) (now : Text) :
    Except Failure Workflow :=
  match workflow.pendingDecision.filter fun _ => workflow.status = .inProgress with
  | none => .error (.singularityFlow (js "Story is not waiting for a decision.")
      (some (js "DECISION_NOT_PENDING")))
  | some pending =>
      match (workflow.phase pending.after).filter fun phase => phase.status = .approved
          ∧ workflow.currentPhase = some phase.id with
      | none => .error (.singularityFlow (js "Story records a decision after '" ++ pending.after
          ++ js "', but that phase is not the approved current phase.")
          (some (js "DECISION_STATE_INVALID")))
      | some phase => do
          let (route, reach) ← resolveDecisionChoice workflow pending option step
          let _ ← if route.id = js "step" then assertChoiceKeepsDependencies workflow pending reach
            else .ok ()
          let outcome : Outcome := ⟨pending.decision, pending.label, pending.after,
            reach.kind.outcome, some route.id, some route.label, reach.target, reach.skipped,
            if reach.kind = .backward then some (usedRounds workflow pending.decision).next else none,
            pending.maxRounds, pending.values, none, none⟩
          if outcome.kind = .loop then
            loopBackForDecision { workflow with pendingDecision := none } phase outcome now
          else
            advanceCompletedPhase workflow phase (if outcome.kind = .next then none else some outcome)
              none

/-- `rejectPhase`, of a rejection that its checks let through.  Rework out of
a phase that nobody submitted (`unsubmitted`) is one of its uses. -/
def rejectPhase (workflow : Workflow) (target : Option Text) (unsubmitted : Bool) (now : Text) :
    Except Failure Workflow := do
  let phase ← currentIn workflow (if unsubmitted then .inProgress else .awaitingApproval)
  let targetId := target.getD phase.id
  failIf (targetId ∉ workflow.phaseOrder
      ∨ workflow.phaseOrder.idxOf phase.id < workflow.phaseOrder.idxOf targetId)
    (refuse (js "Invalid rejection target '" ++ targetId ++ js "'."))
  reopenPhaseRange workflow targetId now true

/-- One operation.  At `restart` the Story is loaded by another process. -/
inductive Action where
  | submit (submission : Submission)
  | approve (decision : ApprovalRecord) (completion : Completion)
  | decide (option step : Option Text) (now : Text)
  | reject (target : Option Text) (unsubmitted : Bool) (now : Text)
  | restart

def step (workflow : Workflow) : Action → Except Failure Workflow
  | .submit submission => submitPhase tables workflow submission
  | .approve decision completion => approvePhase tables workflow decision completion
  | .decide option step now => decideStory workflow option step now
  | .reject target unsubmitted now => rejectPhase workflow target unsubmitted now
  | .restart => .ok { workflow with inheritedCounts := [] }

/-! ## Start -/

/-- `phaseState`. -/
def phaseState (first : Bool) (definition : PhaseConfig) : Phase where
  config := definition
  status := if first then .inProgress else .notStarted
  generation := 0
  approvalPolicy := definition.approval.getD ⟨.required, [defaultApprovalAuthority], [], 1, none⟩
  approvals := []
  decisionInputs := none
  reworkRevalidation := none
  retention := none

def startStory (definition : Definition) : Workflow where
  definition
  phases := match definition.phases with
    | [] => []
    | first :: rest => phaseState true first :: rest.map (phaseState false)
  status := .inProgress
  currentPhase := definition.phases.head?.map (·.id)
  pendingDecision := none
  decisionRounds := none
  inheritedCounts := []

end Story

end SingularityFlow
