/-
# The operations on an Initiative

A phase is published, its subjects are approved or rejected, and cones of the
justification graph are invalidated.  Each operation reads the state and the
records, and refuses, leaving both as they are, or writes them (`step`).

Each is run in a transaction of its own, one after another.  What an operation
reads from the repository comes with it.
-/
import SingularityFlow.Initiative.Evaluation
import SingularityFlow.Lib.Run

namespace SingularityFlow

open Ecma

namespace Initiatives

variable (host : Host)

/-! ## The gate of a phase -/

def slashed (phaseId id : Text) : Text := phaseId ++ js "/" ++ id

def outputErrors (bundle : Bundle) (surroundings : Surroundings) (initiative : Initiative)
    (phase : Phase) (definition : OutputDefinition) : Except Failure (List Text) := do
  let some output := phase.output? definition.id
    | .error (.typeError (js "Cannot read properties of undefined"))
  let required := initiativeOutputRequired initiative phase.id definition.id definition.required
  let unpublished := if required ∧ ¬ output.available then
      [js "required output " ++ slashed phase.id output.id ++ js " is not published"]
    else []
  match output.sha256 with
  | none => .ok unpublished
  | some sha256 =>
      match surroundings.file output.path with
      | .error message => .error (refuse message)
      | .ok current =>
          let changed := if current = some sha256 then []
            else [js "output " ++ slashed phase.id output.id ++ js " changed after publication"]
          let count := distinctApprovals host (activeApprovalRecords bundle.approvals
            ⟨phase.id, .output, output.id, some sha256⟩ bundle.invalidatedApprovals)
          let undecided :=
            if definition.approval.mode = .individual ∧ count < definition.approval.minimum then
              [js "output " ++ slashed phase.id output.id ++ js " has " ++ natText count ++ js "/"
                ++ natText definition.approval.minimum ++ js " approvals"]
            else []
          .ok (unpublished ++ changed ++ undecided)

def checkErrors (phaseId : Text) (check : CheckEvaluation) : List Text :=
  if check.status ∈ [.satisfied, .waived, .notApplicable, .optional]
      ∨ check.definition.gate ≠ .block then []
  else if check.status = .unanswered then
    [js "checklist " ++ slashed phaseId check.definition.id
      ++ js " needs an applicability decision; use the returned next action"]
  else
    [js "checklist " ++ slashed phaseId check.definition.id ++ js " is " ++ check.status.text]

def milestoneErrors (initiative : Initiative) (phaseId : Text) : List Text :=
  match requiredInitiativeMilestone phaseId initiative with
  | none => []
  | some required =>
      let incomplete := initiative.childStories.filter fun story =>
        story.blocking && (required ∉ story.milestones || story.stale)
      if incomplete = [] then []
      else [phaseId ++ js " has " ++ natText incomplete.length ++ js " blocking stories below "
        ++ required.text]

/-- Whether decisions complete a policy: the steps of its chain, or else the
number of people. -/
def reachedBy (policy : ApprovalPolicy) (records : List (Entry ApprovalRecord)) : Bool :=
  match approvalChainProgress host policy records with
  | some progress => progress.satisfied
  | none => policy.minimum ≤ distinctApprovals host records

def approvalDetail (policy : ApprovalPolicy) (records : List (Entry ApprovalRecord)) : Text :=
  match approvalChainProgress host policy records with
  | some progress => chainStatusDescription progress
  | none => natText (distinctApprovals host records) ++ js "/" ++ natText policy.minimum
      ++ js " approvals"

def packErrors (bundle : Bundle) (initiative : Initiative) (phaseId : Text) (pack : Pack) :
    Except Failure (List Text) := do
  let packBundle ← initiativePackBundle host initiative pack
  let decisions := activeApprovalRecords bundle.approvals
    ⟨phaseId, .pack, pack.id, some packBundle.sha256⟩ bundle.invalidatedApprovals
  if packBundle.missing ≠ [] then
    .ok [js "artifact pack " ++ pack.id ++ js " is incomplete: "
      ++ joinWith (js ", ") packBundle.missing]
  else if pack.approval.mode = .none ∨ reachedBy host pack.approval decisions then .ok []
  else
    .ok [js "artifact pack " ++ pack.id ++ js " has " ++ approvalDetail host pack.approval decisions
      ++ js " for exact pack " ++ packBundle.sha256.take 12]

/-- What an approved phase lacks. -/
def bundleErrors (bundle : Bundle) (definition : PhaseDefinition) (phase : Phase) : List Text :=
  let decisions := activeApprovalRecords bundle.approvals
    ⟨phase.id, .phase, phase.id, some bundle.sha256⟩ bundle.invalidatedApprovals
  if phase.status ≠ .approved ∨ definition.bundleApproval.mode = .none
      ∨ reachedBy host definition.bundleApproval decisions then []
  else
    [js "phase " ++ phase.id ++ js " has "
      ++ approvalDetail host definition.bundleApproval decisions ++ js " for exact bundle "
      ++ bundle.sha256.take 12]

def evaluateInitiativePhase (workspace : Workspace) (surroundings : Surroundings) (phaseId : Text) :
    Except Failure (List Text) := do
  let initiative := workspace.initiative
  let definition ← phaseDefinition initiative phaseId
  let phase ← phaseOf initiative phaseId
  let bundle ← initiativeBundle host workspace surroundings phaseId
  let outputs ← sequence
    (definition.outputs.map (outputErrors host bundle surroundings initiative phase))
  let packs ← sequence ((packsTerminatingAt initiative.resolution phaseId).map
    (packErrors host bundle initiative phaseId))
  .ok (outputs.flatten ++ surroundings.authoring ++ bundle.checklist.flatMap (checkErrors phaseId)
    ++ milestoneErrors initiative phaseId ++ packs.flatten
    ++ bundleErrors host bundle definition phase)

/-! ## Approving -/

def phaseStatusText : Option PhaseStatus → Text
  | none => js "missing"
  | some .notStarted => js "not_started"
  | some .inProgress => js "in_progress"
  | some .awaitingApproval => js "awaiting_approval"
  | some .approved => js "approved"
  | some .stale => js "stale"
  | some .skipped => js "skipped"

def notCurrent (initiative : Initiative) : Failure :=
  refuse (js "Current initiative phase is '" ++ initiative.currentPhase.getD (js "complete")
    ++ js "'.")

/-- The current phase, awaiting what is done to it. -/
def awaitingPhase (operation : Text) (initiative : Initiative) (phaseId : Option Text) :
    Except Failure Phase := do
  failIf (phaseId.isSome ∧ phaseId ≠ initiative.currentPhase) (notCurrent initiative)
  let some phase := initiative.currentPhase.bind initiative.phase?
    | .error (.typeError (js "Cannot read properties of undefined"))
  failIf (phase.status ≠ .awaitingApproval)
    (refuse (js "Initiative phase '" ++ phase.id ++ js "' is " ++ phaseStatusText (some phase.status)
      ++ js "; " ++ operation ++ js " requires awaiting_approval."))
  .ok phase

/-- What is to be approved, and by which policy. -/
structure Target where
  definition : ApprovalPolicy
  type : SubjectType
  id : Text
  sha256 : Option Text
  generatedBy : Option Actor

def approvalPolicyForCheck (phase : PhaseDefinition) (check : CheckDefinition) : ApprovalPolicy :=
  if check.approval.mode ≠ .bundle ∨ check.approval.authorities ≠ [] then check.approval
  else phase.bundleApproval

def packPrefix : Text := js "pack:"

def packSubject (initiative : Initiative) (phaseId packId : Text) : Except Failure Target := do
  let some pack := initiative.resolution.packs.find? (·.id = packId)
    | .error (refuse (js "Unknown initiative artifact pack '" ++ packId ++ js "'."))
  failIf (packTerminalPhase initiative.resolution pack ≠ some phaseId)
    (refuse (js "Artifact pack '" ++ pack.id ++ js "' is reviewed at phase '"
      ++ (packTerminalPhase initiative.resolution pack).getD (js "null") ++ js "', not '" ++ phaseId
      ++ js "'."))
  let packBundle ← initiativePackBundle host initiative pack
  failIf (packBundle.missing ≠ [])
    (refuse (js "Artifact pack '" ++ pack.id ++ js "' is incomplete: "
      ++ joinWith (js ", ") packBundle.missing ++ js "."))
  .ok ⟨pack.approval, .pack, pack.id, some packBundle.sha256, none⟩

def unknownSubject (subject : Text) : Failure :=
  refuse (js "Unknown approval subject '" ++ subject
    ++ js "'. Use phase, 'pack:<id>', an output ID, or a checklist ID.")

def checkSubject (definition : PhaseDefinition) (bundle : Bundle) (subject : Text) :
    Except Failure Target :=
  match definition.check? subject, bundle.checklist.find? (·.definition.id = subject) with
  | some check, some projection =>
      .ok ⟨approvalPolicyForCheck definition check, .check, subject,
        some (host.recordSha256 projection.toValue), none⟩
  | _, _ => .error (unknownSubject subject)

def approvalSubject (initiative : Initiative) (phaseId subject : Text) (bundle : Bundle) :
    Except Failure Target := do
  let definition ← phaseDefinition initiative phaseId
  let phase ← phaseOf initiative phaseId
  if subject = js "phase" then
    .ok ⟨definition.bundleApproval, .phase, phaseId, some bundle.sha256, none⟩
  else if packPrefix.isPrefixOf subject then
    packSubject host initiative phaseId (subject.drop packPrefix.length)
  else
    match phase.output? subject with
    | some output => do
        let outputDefinition ← outputDefinition initiative phaseId subject
        .ok ⟨outputDefinition.approval, .output, subject, output.sha256, output.generatedBy⟩
    | none =>
        -- an inherited property stands for an output that has no definition
        if subject ∈ inheritedNames then
          .error (refuse (js "Unknown initiative output '" ++ slashed phaseId subject ++ js "'."))
        else checkSubject host definition bundle subject

/-- A person's decision, and what it is made in. -/
structure Review where
  actor : Actor
  agent : Option Text
  channel : Text
  recordedAt : Text
  surroundings : Surroundings

/-- The next phase: the first one after a phase that is not approved. -/
def nextPhase? (initiative : Initiative) (phaseId : Text) : Option Text :=
  (((initiative.phases.dropWhile (·.id ≠ phaseId)).drop 1).find? (·.status ≠ .approved)).map
    Phase.id

def setStatus (status : PhaseStatus) (phase : Phase) : Phase := { phase with status }

/-- A phase is approved, and the lifecycle goes on. -/
def completePhase (initiative : Initiative) (phaseId : Text) : Initiative :=
  let approved := initiative.update phaseId (setStatus .approved) fun _ => rfl
  match nextPhase? initiative phaseId with
  | some nextId =>
      { approved.update nextId (setStatus .inProgress) fun _ => rfl with currentPhase := some nextId }
  | none => { approved with currentPhase := none, status := .complete }

def approveOutput (outputId : Text) (phase : Phase) : Phase :=
  { phase with outputs := phase.outputs.map fun output =>
      if output.id = outputId then { output with status := .approved } else output }

/-- What an approval that completes its policy makes of the state. -/
def settle (initiative : Initiative) (phaseId : Text) (target : Target) : Initiative :=
  match target.type with
  | .output => initiative.update phaseId (approveOutput target.id) fun _ => rfl
  | .phase => completePhase initiative phaseId
  | _ => initiative

/-- The state after an approval, what was recorded, and the decisions that were
counted with it. -/
structure Approved where
  workspace : Workspace
  target : Target
  counted : List (Entry ApprovalRecord)
  reached : Bool

def actorLabel (actor : Actor) : Text := (actorEmail host actor).getD []

def requiredAuthority (policy : ApprovalPolicy) (before : Option ChainProgress) : Text :=
  match before.bind ChainProgress.open?, before with
  | some step, some progress =>
      step.step.label ++ js " (chain step " ++ natText (step.index + 1) ++ js " of "
        ++ natText progress.steps.length ++ js ")"
  | _, _ => authorityDescription policy

def selfApproves (phase : Phase) (target : Target) (actor : Actor) : Bool :=
  let generatedByActor := fun generatedBy : Option Actor =>
    (generatedBy.bind (actorEmail host)) = actorEmail host actor
  generatedByActor target.generatedBy
    || (target.type = .phase && phase.outputs.any fun output => generatedByActor output.generatedBy)

/-- The record of an approval, with the step of the chain it is made for. -/
def approvalRecord (initiativeId phaseId : Text) (target : Target) (review : Review)
    (step : Option StepProgress) (selfApproval : Bool) : ApprovalRecord :=
  { decision := .approved
    initiativeId
    phase := phaseId
    subject :=
      { type := target.type
        id := target.id
        sha256 := target.sha256
        chainStep := step.map StepProgress.index
        authorityGroup := step.map (·.step.authority) }
    reason := none
    actor := review.actor
    agent := review.agent
    channel := review.channel
    recordedAt := review.recordedAt
    selfApproval }

def Target.key (target : Target) (phaseId : Text) : SubjectKey :=
  ⟨phaseId, target.type, target.id, target.sha256⟩

/-- Who may approve a target, from the decisions that are counted for it: the
first reading of the records. -/
def admitApproval (initiative : Initiative) (target : Target) (actor : Actor)
    (prior : List (Entry ApprovalRecord)) : Except Failure Unit := do
  let before := approvalChainProgress host target.definition prior
  failIf (before.any ChainProgress.satisfied)
    (refuse (target.type.text ++ js " '" ++ target.id
      ++ js "' has already completed its review chain."))
  failIf (¬ isAuthorized host initiative.resolution target.definition actor (some prior))
    (refuse (actorLabel host actor ++ js " is not authorized to approve " ++ target.type.text
      ++ js " '" ++ target.id ++ js "'. Required authority: "
      ++ requiredAuthority target.definition before ++ js "."))

/-- An approval is recorded: the second reading of the records. -/
def recordApproval (workspace : Workspace) (phase : Phase) (target : Target) (review : Review)
    (current : List (Entry ApprovalRecord)) : Except Failure Approved := do
  failIf (current.any fun entry =>
      actorEmail host entry.record.actor = actorEmail host review.actor)
    (refuse (actorLabel host review.actor ++ js " already approved this exact " ++ target.type.text
      ++ js " hash."))
  let step := (approvalChainProgress host target.definition current).bind ChainProgress.open?
  let selfApproval := selfApproves host phase target review.actor
  failIf (selfApproval ∧ target.definition.allowSelfApproval = false)
    (refuse (js "Capability and initiative policy prohibit self-approval for " ++ target.type.text
      ++ js " '" ++ target.id
      ++ js "'. Ask another authorized Git identity to approve this hash."))
  let record := approvalRecord workspace.initiative.id phase.id target review step selfApproval
  let (appended, approvals) := appendInitiativeRecord host ApprovalRecord.toValue
    workspace.approvals record
  let counted := current ++ [appended]
  let reached := reachedBy host target.definition counted
  let initiative := if reached then settle workspace.initiative phase.id target
    else workspace.initiative
  .ok ⟨{ workspace with initiative, approvals }, target, counted, reached⟩

/-- The gate of a phase; the other subjects have none. -/
def requireReady (workspace : Workspace) (surroundings : Surroundings) (phaseId : Text)
    (target : Target) : Except Failure Unit :=
  if target.type = .phase then do
    let errors ← evaluateInitiativePhase host workspace surroundings phaseId
    failIf (errors ≠ [])
      (refuse (js "Initiative phase '" ++ phaseId ++ js "' is not ready:\n- "
        ++ joinWith (js "\n- ") errors))
  else .ok ()

def approveInitiative (workspace : Workspace) (phaseId : Option Text) (subject : Text)
    (review : Review) : Except Failure Approved := do
  let initiative := workspace.initiative
  let phase ← awaitingPhase (js "approval") initiative phaseId
  failIf (review.surroundings.authoring ≠ [])
    (.singularityFlow (js "Initiative phase '" ++ phase.id
        ++ js "' cannot be approved while outputs are incomplete:\n- "
        ++ joinWith (js "\n- ") review.surroundings.authoring)
      (some (js "ARTIFACT_AUTHORING_INCOMPLETE")))
  let bundle ← initiativeBundle host workspace review.surroundings phase.id
  let target ← approvalSubject host initiative phase.id subject bundle
  failIf (target.sha256.getD [] = [])
    (refuse (js "Approval subject '" ++ subject ++ js "' has no published hash."))
  failIf ((actorEmail host review.actor).getD [] = [])
    (refuse (js "Initiative approval requires a configured local Git email."))
  admitApproval host initiative target review.actor
    (activeApprovalRecords bundle.approvals (target.key phase.id) bundle.invalidatedApprovals)
  requireReady host workspace review.surroundings phase.id target
  recordApproval host workspace phase target review
    (activeApprovalRecords workspace.approvals (target.key phase.id) bundle.invalidatedApprovals)

/-! ## Publishing -/

/-- What a publication reads: the inputs, and the files of the outputs after the
generators ran.  It may be refused before and after the outputs are read; the
checks that its gates passed are registered as evidence. -/
structure Publication where
  actor : Actor
  input : Text → Except Failure (Option Text)
  refusal : Option Failure
  file : Text → Except Failure (Option Text)
  laterRefusal : Option Failure
  evidence : List (Entry EvidenceRecord)

def inputPrefix (phaseId outputId reference : Text) : Text :=
  js "Initiative input '" ++ reference ++ js "' for '" ++ slashed phaseId outputId

/-- The status of the phase that a reference names. -/
def producerStatus (initiative : Initiative) (reference : Text) : Option PhaseStatus :=
  (initiative.phase? (referencePhase reference)).map Phase.status

/-- The refusal of an input because of the status of its phase. -/
def producerNotApproved (initiative : Initiative) (phaseId outputId reference : Text) : Failure :=
  refuse (inputPrefix phaseId outputId reference ++ js "' requires approved phase '"
    ++ referencePhase reference ++ js "', which is "
    ++ phaseStatusText (producerStatus initiative reference) ++ js ".")

/-- The refusal of an input that its phase did not publish. -/
def noPublishedHash (phaseId outputId reference : Text) : Failure :=
  refuse (inputPrefix phaseId outputId reference ++ js "' has no approved published artifact hash.")

def verifyPublishedInput (initiative : Initiative) (input : Text → Except Failure (Option Text))
    (phaseId outputId reference : Text) : Except Failure Unit :=
  let producerPhaseId := referencePhase reference
  match initiative.output? reference with
  | none =>
      -- an output that is not there is not required only where a selection says so
      if initiativeOutputRequired initiative producerPhaseId (js "undefined") true then
        .error (noPublishedHash phaseId outputId reference)
      else .error (.typeError (js "Cannot read properties of undefined"))
  | some output =>
      if output.sha256 = none ∧ (output.required = false
          ∨ initiativeOutputRequired initiative producerPhaseId output.id output.required = false) then
        .ok ()
      else if ¬ output.available then .error (noPublishedHash phaseId outputId reference)
      else do
        let current ← input output.path
        failIf (current ≠ output.sha256)
          (refuse (inputPrefix phaseId outputId reference ++ js "' changed after approval."))

/-- The gate of an input on the status of its phase. -/
def requireApprovedProducer (initiative : Initiative) (phaseId outputId reference : Text) :
    Except Failure Unit :=
  failIf (producerStatus initiative reference ≠ some .approved)
    (producerNotApproved initiative phaseId outputId reference)

def verifyInput (initiative : Initiative) (input : Text → Except Failure (Option Text))
    (phaseId outputId reference : Text) : Except Failure Unit := do
  requireApprovedProducer initiative phaseId outputId reference
  verifyPublishedInput initiative input phaseId outputId reference

/-- The references of a phase, each with the output that makes it. -/
def PhaseDefinition.inputs (phase : PhaseDefinition) : List (Text × Text) :=
  phase.outputs.flatMap fun output => output.consumes.map fun reference => (output.id, reference)

def verifyInitiativePhaseInputs (initiative : Initiative)
    (input : Text → Except Failure (Option Text)) (phaseId : Text) : Except Failure Unit := do
  let definition ← phaseDefinition initiative phaseId
  let _ ← sequence (definition.inputs.map fun reference =>
    verifyInput initiative input phaseId reference.1 reference.2)
  .ok ()

/-- An output with the file that was read for it, if there is one. -/
def published (actor : Actor) (generation : Nat) (output : Output) : Option Text → Output
  | none => output
  | some sha256 =>
      { output with
        status := .published
        generation
        sha256 := some sha256
        generatedBy := some (output.generatedBy.getD actor) }

def publishOutput (publication : Publication) (generation : Nat) (output : Output) :
    Except Failure Output := do
  let current ← publication.file output.path
  .ok (published publication.actor generation output current)

/-- A published phase awaits its approval. -/
def submit (outputs : List Output) (phase : Phase) : Phase :=
  { phase with outputs, generation := phase.generation + 1, status := .awaitingApproval }

theorem submit_id (outputs : List Output) (phase : Phase) : (submit outputs phase).id = phase.id :=
  rfl

/-- The required outputs whose files are not there. -/
def missingOutputs (initiative : Initiative) (definition : PhaseDefinition) (phase : Phase)
    (publication : Publication) : List Text :=
  definition.outputs.filterMap fun outputDefinition => do
    let output ← phase.output? outputDefinition.id
    if initiativeOutputRequired initiative phase.id outputDefinition.id outputDefinition.required
        ∧ publication.file output.path = .ok none then
      some (outputDefinition.id ++ js " (" ++ output.path ++ js ")")
    else none

def refuseWith : Option Failure → Except Failure Unit
  | none => .ok ()
  | some failure => .error failure

def publishInitiativePhase (workspace : Workspace) (phaseId : Text) (publication : Publication) :
    Except Failure Workspace := do
  let initiative := workspace.initiative
  failIf (initiative.currentPhase ≠ some phaseId)
    (refuse (js "Current initiative phase is '" ++ initiative.currentPhase.getD (js "complete")
      ++ js "'; cannot publish '" ++ phaseId ++ js "'."))
  let phase ← phaseOf initiative phaseId
  failIf (phase.status ≠ .inProgress)
    (refuse (js "Initiative phase '" ++ phaseId ++ js "' is " ++ phaseStatusText (some phase.status)
      ++ js "."))
  verifyInitiativePhaseInputs initiative publication.input phaseId
  refuseWith publication.refusal
  let definition ← phaseDefinition initiative phaseId
  let outputs ← sequence (phase.outputs.map (publishOutput publication (phase.generation + 1)))
  let missing := missingOutputs initiative definition phase publication
  failIf (missing ≠ [])
    (.singularityFlow (js "Initiative phase '" ++ phaseId ++ js "' is missing required outputs: "
      ++ joinWith (js ", ") missing ++ js ".") (some (js "INITIATIVE_OUTPUTS_MISSING")))
  refuseWith publication.laterRefusal
  .ok
    { workspace with
      initiative := initiative.update phaseId (submit outputs) (submit_id outputs)
      evidence := publication.evidence.foldl append workspace.evidence }

/-! ## Invalidating and rejecting -/

structure Invalidation where
  reason : Text
  cause : Text
  actor : Actor
  agent : Option Text
  recordedAt : Text

def invalidateInitiativeCone (workspace : Workspace) (starts : List Text)
    (invalidation : Invalidation) : Except Failure Workspace := do
  failIf (starts = [])
    (refuse (js "At least one justification-graph node is required for invalidation."))
  failIf (trim invalidation.reason = []) (refuse (js "Invalidation reason is required."))
  let graph := buildInitiativeGraph workspace.initiative workspace.evidence workspace.approvals
  let _ ← sequence (starts.map fun node => failIf (graph.has node = false)
    (refuse (js "Unknown justification-graph node '" ++ node ++ js "'.")))
  let affected := downstreamCone graph starts
  let record : InvalidationRecord :=
    { initiativeId := workspace.initiative.id
      cause := invalidation.cause
      starts := (distinct starts).insertionSort LeUnits
      affected
      reason := trim invalidation.reason
      actor := invalidation.actor
      agent := invalidation.agent
      recordedAt := invalidation.recordedAt }
  let (_, invalidations) := appendInitiativeRecord host InvalidationRecord.toValue
    workspace.invalidations record
  .ok { workspace with initiative := invalidated workspace.initiative affected, invalidations }

structure RejectionTarget where
  node : Text
  policy : ApprovalPolicy
  type : SubjectType
  id : Text

/-- A policy of its own, or that of the phase. -/
def ownPolicy (phase : PhaseDefinition) (approval : ApprovalPolicy) : ApprovalPolicy :=
  if approval.mode = .bundle then phase.bundleApproval else approval

def rejectionTarget (initiative : Initiative) (phaseId subject : Text) :
    Except Failure RejectionTarget := do
  let phase ← phaseDefinition initiative phaseId
  if subject = js "phase" then .ok ⟨phaseNode phaseId, phase.bundleApproval, .phase, phaseId⟩
  else
    match phase.output? subject, phase.check? subject with
    | some output, _ =>
        .ok ⟨outputNode phaseId subject, ownPolicy phase output.approval, .output, subject⟩
    | none, some check =>
        .ok ⟨checkNode phaseId subject, ownPolicy phase check.approval, .check, subject⟩
    | none, none => .error (refuse (js "Unknown rejection subject '" ++ subject ++ js "'."))

structure Rejection where
  reason : Text
  actor : Actor
  agent : Option Text
  channel : Text
  recordedAt : Text
  /-- When the invalidation was recorded. -/
  invalidatedAt : Text

/-- The rejected phase is taken up again, whatever the invalidation reopened. -/
def reopen (initiative : Initiative) (phaseId : Text) : Initiative :=
  { initiative.update phaseId (setStatus .inProgress) fun _ => rfl with
    currentPhase := some phaseId
    status := .inProgress }

def rejectInitiative (workspace : Workspace) (phaseId : Option Text) (subject : Text)
    (rejection : Rejection) : Except Failure Workspace := do
  failIf (trim rejection.reason = []) (refuse (js "Initiative rejection reason is required."))
  let initiative := workspace.initiative
  let phase ← awaitingPhase (js "rejection") initiative phaseId
  let target ← rejectionTarget initiative phase.id subject
  failIf (¬ isAuthorized host initiative.resolution target.policy rejection.actor none)
    (refuse (actorLabel host rejection.actor ++ js " is not authorized to reject "
      ++ target.type.text ++ js " '" ++ target.id ++ js "'. Required authority: "
      ++ authorityDescription target.policy ++ js "."))
  let decision : ApprovalRecord :=
    { decision := .rejected
      initiativeId := initiative.id
      phase := phase.id
      subject := ⟨target.type, target.id, none, none, none⟩
      reason := some (trim rejection.reason)
      actor := rejection.actor
      agent := rejection.agent
      channel := rejection.channel
      recordedAt := rejection.recordedAt
      selfApproval := false }
  let (_, approvals) := appendInitiativeRecord host ApprovalRecord.toValue workspace.approvals
    decision
  let workspace' ← invalidateInitiativeCone host { workspace with approvals } [target.node]
    ⟨trim rejection.reason, js "rejected", rejection.actor, rejection.agent, rejection.invalidatedAt⟩
  .ok { workspace' with initiative := reopen workspace'.initiative phase.id }

/-! ## Steps -/

inductive Action where
  | publish (phaseId : Text) (publication : Publication)
  | approve (phaseId : Option Text) (subject : Text) (review : Review)
  | reject (phaseId : Option Text) (subject : Text) (rejection : Rejection)
  | invalidate (starts : List Text) (invalidation : Invalidation)

def step (workspace : Workspace) : Action → Except Failure Workspace
  | .publish phaseId publication => publishInitiativePhase workspace phaseId publication
  | .approve phaseId subject review =>
      (approveInitiative host workspace phaseId subject review).map Approved.workspace
  | .reject phaseId subject rejection => rejectInitiative host workspace phaseId subject rejection
  | .invalidate starts invalidation => invalidateInitiativeCone host workspace starts invalidation

end Initiatives

end SingularityFlow
