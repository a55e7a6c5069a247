/-
# What an approval decided over, and keeping it

`phase-upstream.mjs` names each thing that a phase depends on and digests it;
an approval records the digest.  After rework `phase-retention.mjs` compares
it with the Story as it is, and carries the approvals of a phase over.

The phases here have the fields that these two files read and write; those of
`Lifecycle` have none of them.  Digests, the tree at HEAD, the specification
records and the documents are parameters, as is what `localeCompare` answers.
-/
import SingularityFlow.Story.SoftGates

namespace SingularityFlow

open Ecma Approval

namespace Retention

/-! ## Phases -/

structure Artifact where
  path : Text
  present : Bool
  sha256 : Option Text
deriving DecidableEq

/-- What rule E1 records of an approval that it carries. -/
structure RetainedByRule where
  approvalAt : Text
  invalidatedAt : Option Text
  upstreamSha256 : Text
deriving DecidableEq

structure Approval where
  record : ApprovalRecord
  retained : Option RetainedByRule
deriving DecidableEq

structure RetentionRecord where
  atTime : Text
  generation : Nat
  upstreamSha256 : Text
deriving DecidableEq

/-- A phase, with what is pinned for it: `feedsDecision` when a decision is
fed by it or follows it, `deliversCode` when it must deliver code. -/
structure Phase where
  id : Text
  inputs : List Text
  skill : Bool
  feedsDecision : Bool
  deliversCode : Bool
  approvalPolicy : ApprovalPolicy
  status : PhaseStatus
  generation : Nat
  artifacts : List Artifact
  approvals : List Approval
  approvedAt : Option Text
  approvedBy : Option Text
  reworkRevalidation : Option Story.Revalidation
  retention : Option RetentionRecord

/-- `workflow.phaseOrder` and `workflow.phases`. -/
structure Workflow where
  phaseOrder : List Text
  phases : Text → Option Phase

/-- What the comparisons ask the repository, at one moment. -/
structure Surroundings where
  tree : Option Text
  records : Text
  documents : Text → Text
  decisions : Text
  /-- The artifacts and the recorded inputs of a phase verify. -/
  unchanged : Text → Bool

/-! ## Upstream references -/

/-- One producer as its consumer's phase-input record binds it. -/
structure Producer where
  status : Option PhaseStatus
  generation : Nat
  approvedAt : Option Text
  approvedBy : Option Text
  artifacts : List Artifact
deriving DecidableEq

inductive ReferenceKind where
  | input | phase | candidate | specification | documents | decisions
deriving DecidableEq

structure Reference where
  kind : ReferenceKind
  ref : Text
  sha256 : Text
deriving DecidableEq

structure Upstream where
  sha256 : Text
  refs : List Reference
deriving DecidableEq

structure Host where
  tables : UnicodeTables
  localeLe : Text → Text → Bool
  digestProducer : Producer → Text
  digestReferences : List Reference → Text

variable (host : Host)

/-- The fields of a producer that are digested. -/
def producer (phase : Option Phase) : Producer where
  status := phase.map (·.status)
  generation := (phase.map (·.generation)).getD 0
  approvedAt := phase.bind (·.approvedAt)
  approvedBy := phase.bind (·.approvedBy)
  artifacts := ((phase.map (·.artifacts)).getD []).insertionSort
    fun left right => host.localeLe left.path right.path = true

def producerDigest (phase : Option Phase) : Text := host.digestProducer (producer host phase)

/-- The phases that a phase declares as inputs. -/
def declaredInputs (phase : Phase) : List Text :=
  (distinct (phase.inputs.filter (· ≠ []))).insertionSort LeUnits

/-- The phases whose completion a phase depends on. -/
def producersOf (workflow : Workflow) (phase : Phase) : List Text :=
  if declaredInputs phase ≠ [] then declaredInputs phase
  else workflow.phaseOrder.take (workflow.phaseOrder.idxOf phase.id)

def phaseUpstream (workflow : Workflow) (surroundings : Surroundings) (phase : Phase) :
    Option Upstream :=
  let order := workflow.phaseOrder
  if phase.skill = true ∨ phase.id ∉ order then none
  else
    let kind := if declaredInputs phase ≠ [] then ReferenceKind.input else .phase
    let producers := (producersOf workflow phase).map fun id =>
      (⟨kind, id, producerDigest host (workflow.phases id)⟩ : Reference)
    let code := (order.take (order.idxOf phase.id + 1)).any fun id =>
      (workflow.phases id).any (·.deliversCode)
    let rest := [⟨.documents, phase.id, surroundings.documents phase.id⟩,
      ⟨.decisions, js "story", surroundings.decisions⟩]
    (if code then surroundings.tree.map fun tree =>
        [⟨.candidate, js "HEAD", tree⟩, ⟨.specification, js "records", surroundings.records⟩]
      else some []).map fun delivered =>
        let refs := producers ++ delivered ++ rest
        ⟨host.digestReferences refs, refs⟩

/-! ## Retention -/

/-- The approvals of this generation that a reset invalidated. -/
def invalidatedBy (phase : Phase) (reset : Story.Revalidation) : List Approval :=
  phase.approvals.filter fun entry => entry.record.decision = .approved
    ∧ entry.record.invalidatedAt = some reset.invalidatedAt
    ∧ entry.record.generation = phase.generation

def retainableApprovals (phase : Phase) : Option (List Approval) :=
  match phase.reworkRevalidation with
  | none => none
  | some reset =>
      if reset.retainable = false ∨ phase.status ≠ .notStarted ∨ phase.generation = 0
          ∨ phase.generation ≠ reset.generation ∨ phase.feedsDecision = true then none
      else
        let approvals := invalidatedBy phase reset
        if approvals = [] ∨ approvals.any (·.record.upstreamSha256 = none) = true then none
        else
          -- judged as they stood before the reset
          let decided := approvals.map fun entry => { entry.record with invalidatedAt := none }
          if approvalRequirementsMet host.tables phase.approvalPolicy decided then some approvals
          else none

/-- The time of the approval that a record carries. -/
def Approval.approvalAt (approval : Approval) : Text :=
  (approval.retained.map (·.approvalAt)).getD approval.record.atTime

/-- A new record of an approval, by rule E1. -/
def carry (now : Text) (upstream : Upstream) (approval : Approval) : Approval where
  record := { approval.record with atTime := now, invalidatedAt := none }
  retained := some ⟨approval.approvalAt, approval.record.invalidatedAt, upstream.sha256⟩

/-- The approval with the last time, and of those the one recorded last. -/
def completing (approvals : List Approval) : Option Approval :=
  (approvals.insertionSort fun left right =>
    host.localeLe left.record.atTime right.record.atTime = true).getLast?

def retain (phase : Phase) (approvals : List Approval) (now : Text) (upstream : Upstream) : Phase :=
  let completing := completing host approvals
  { phase with
    approvals := phase.approvals ++ approvals.map (carry now upstream)
    status := .approved
    approvedAt := completing.map (·.approvalAt)
    approvedBy := completing.bind (actorKey ·.record.actor)
    retention := some ⟨now, phase.generation, upstream.sha256⟩
    reworkRevalidation := none }

/-- One turn of the loop of `retainUnchangedPhases`; `none` ends it. -/
def retainPhase (workflow : Workflow) (surroundings : Surroundings) (now id : Text) :
    Option Workflow := do
  let phase ← workflow.phases id
  let approvals ← retainableApprovals host phase
  let upstream ← phaseUpstream host workflow surroundings phase
  if approvals.any (·.record.upstreamSha256 ≠ some upstream.sha256) = true
      ∨ surroundings.unchanged id = false then none
  else some { workflow with
    phases := Function.update workflow.phases id (some (retain host phase approvals now upstream)) }

def retainPhases (surroundings : Surroundings) (now : Text) : List Text → Workflow → Workflow
  | [], workflow => workflow
  | id :: rest, workflow =>
      match retainPhase host workflow surroundings now id with
      | none => workflow
      | some retained => retainPhases surroundings now rest retained

/-- The phases after a completed one, up to the first that must run again. -/
def retainUnchangedPhases (workflow : Workflow) (completed : Text) (surroundings : Surroundings)
    (now : Text) : Workflow :=
  if completed ∈ workflow.phaseOrder then
    retainPhases host surroundings now
      (workflow.phaseOrder.drop (workflow.phaseOrder.idxOf completed + 1)) workflow
  else workflow

/-! ## Rework and completion -/

def invalidate (now : Text) (approval : Approval) : Approval :=
  if approval.record.invalidatedAt = none then
    { approval with record := { approval.record with invalidatedAt := some now } }
  else approval

def resetPhaseForRework (phase : Phase) (now : Text) (status : PhaseStatus) (retainable : Bool) :
    Phase :=
  { phase with
    approvals := phase.approvals.map (invalidate now)
    status
    approvedAt := none
    approvedBy := none
    reworkRevalidation := some ⟨phase.generation, now, retainable && phase.status = .approved⟩
    retention := none }

def resetPhaseRangeForRework (workflow : Workflow) (targetId now : Text) (retain : Bool) :
    Workflow :=
  let targetIndex := workflow.phaseOrder.idxOf targetId
  { workflow with
    phases := fun id =>
      if id ∉ workflow.phaseOrder.drop targetIndex then workflow.phases id
      else (workflow.phases id).map fun phase =>
        if id = targetId then resetPhaseForRework phase now .inProgress false
        else resetPhaseForRework phase now .notStarted retain }

/-- `approvePhase`: the decision is recorded with what it decides over, and
completes the phase when the policy is met. -/
def approvePhase (workflow : Workflow) (surroundings : Surroundings) (phase : Phase)
    (actor : Actor) (authorityGroup now : Text) : Phase :=
  let decision : Approval := ⟨⟨.approved, actor, authorityGroup, phase.generation, now, none,
    (phaseUpstream host workflow surroundings phase).map (·.sha256)⟩, none⟩
  let reviewed := { phase with approvals := phase.approvals ++ [decision] }
  if approvalRequirementsMet host.tables phase.approvalPolicy
      (reviewed.approvals.map (·.record)) then
    { reviewed with status := .approved, approvedAt := some now, approvedBy := actorKey actor }
  else reviewed

/-- An operation on the phases of a Story.  `complete` is a completion without
an approval; `retain` is one turn of the loop after a completion. -/
inductive Action where
  | start (id : Text)
  | generate (id : Text) (generation : Nat) (artifacts : List Artifact)
  | submit (id : Text)
  | complete (id now : Text) (person : Option Text)
  | approve (id : Text) (surroundings : Surroundings) (actor : Actor) (authorityGroup now : Text)
  | reset (targetId now : Text) (retain : Bool)
  | retain (id : Text) (surroundings : Surroundings) (now : Text)

/-- Write a phase that has a status. -/
def writeIn (workflow : Workflow) (status : PhaseStatus) (id : Text) (f : Phase → Phase) :
    Option Workflow :=
  ((workflow.phases id).filter (·.status = status)).map fun phase =>
    { workflow with phases := Function.update workflow.phases id (some (f phase)) }

/-- What an operation comes to; `none` when it is refused. -/
def apply (workflow : Workflow) : Action → Option Workflow
  | .start id => writeIn workflow .notStarted id fun phase => { phase with status := .inProgress }
  | .generate id generation artifacts =>
      writeIn workflow .inProgress id fun phase => { phase with generation, artifacts }
  | .submit id =>
      writeIn workflow .inProgress id fun phase => { phase with status := .awaitingApproval }
  | .complete id now person => writeIn workflow .inProgress id fun phase =>
      { phase with status := .approved, approvedAt := some now, approvedBy := person }
  | .approve id surroundings actor authorityGroup now =>
      writeIn workflow .awaitingApproval id fun phase =>
        approvePhase host workflow surroundings phase actor authorityGroup now
  | .reset targetId now retain =>
      if targetId ∈ workflow.phaseOrder then
        some (resetPhaseRangeForRework workflow targetId now retain)
      else none
  | .retain id surroundings now => retainPhase host workflow surroundings now id

def step (workflow : Workflow) (action : Action) : Except Failure Workflow :=
  match apply host workflow action with
  | some workflow' => .ok workflow'
  | none => .error (refuse (js "The operation does not apply."))

/-- A phase when the Story starts. -/
def Phase.fresh (phase : Phase) : Prop :=
  phase.status = .notStarted ∧ phase.approvals = [] ∧ phase.reworkRevalidation = none
    ∧ phase.retention = none

/-! ## The phases of the lifecycle -/

/-- The phase as `Lifecycle` has it. -/
def Phase.erase (config : Story.PhaseConfig) (phase : Phase) : Story.Phase where
  config
  status := phase.status
  generation := phase.generation
  approvalPolicy := phase.approvalPolicy
  approvals := phase.approvals.map (·.record)
  decisionInputs := none
  reworkRevalidation := phase.reworkRevalidation
  retention := phase.retention.map (·.generation)

/-- A reset here is a reset of the lifecycle. -/
theorem erase_resetPhaseForRework (config : Story.PhaseConfig) (phase : Phase) (now : Text)
    (status : PhaseStatus) (retainable : Bool) :
    (resetPhaseForRework phase now status retainable).erase config
      = Story.resetPhaseForRework (phase.erase config) now status retainable := by
  have happrovals : (phase.approvals.map (invalidate now)).map (·.record)
      = (phase.approvals.map (·.record)).map fun approval =>
          if approval.invalidatedAt = none then { approval with invalidatedAt := some now }
          else approval := by
    rw [List.map_map, List.map_map]
    refine List.map_congr_left fun approval _ => ?_
    simp only [Function.comp_apply, invalidate]
    split <;> rfl
  simp only [Phase.erase, resetPhaseForRework, Story.resetPhaseForRework, happrovals,
    Option.map_none]
  rfl

/-- What is retained here is what the lifecycle retains. -/
theorem erase_retain (config : Story.PhaseConfig) (phase : Phase) (approvals : List Approval)
    (now : Text) (upstream : Upstream) :
    (retain host phase approvals now upstream).erase config
      = Story.retain (phase.erase config) (approvals.map (·.record)) now := by
  simp only [Phase.erase, retain, Story.retain, List.map_append, List.map_map, Option.map_some]
  rfl

end Retention

end SingularityFlow
