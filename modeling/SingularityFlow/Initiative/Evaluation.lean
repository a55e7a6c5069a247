/-
# What is reviewed, and whether a phase is ready

A phase is approved as a bundle: the hash over its outputs, its checklist as
it is evaluated, and what it waits for (`initiativeBundle`).  A pack is the
hash over the outputs that are its members (`initiativePackBundle`).  A phase
may be approved when `evaluateInitiativePhase` finds no error.

What is read from the repository is given by `Surroundings`: the files, the
time, and the specifications of an Epic's Stories.
-/
import SingularityFlow.Initiative.Graph

namespace SingularityFlow

open Ecma

namespace Initiatives

/-- What an evaluation reads besides the state and the records. -/
structure Surroundings where
  now : Int
  /-- The hash of a file, where there is one, or that its path is not safe. -/
  file : Text → Except Text (Option Text)
  /-- The findings of the placeholders in the outputs. -/
  authoring : List Text
  storySpecifications : Except Failure (List Value)

variable (host : Host)

/-! ## The checklist -/

inductive EvidenceStatus where
  | active | stale | invalidated
deriving DecidableEq

def EvidenceStatus.text : EvidenceStatus → Text
  | .active => js "active"
  | .stale => js "stale"
  | .invalidated => js "invalidated"

structure EvidenceView where
  entry : Entry EvidenceRecord
  status : EvidenceStatus
  reason : Option Text

inductive CheckStatus where
  | notApplicable | waived | satisfied | unanswered | optional | stale | missing
deriving DecidableEq

structure CheckEvaluation where
  definition : CheckDefinition
  status : CheckStatus
  evidence : List EvidenceView

def supersededEvidence (records : List (Entry EvidenceRecord)) : List Text :=
  records.flatMap fun entry => entry.record.supersedes

def evidenceState (surroundings : Surroundings) (entry : Entry EvidenceRecord) : EvidenceView :=
  let record := entry.record
  let expired := record.expiresAt.filter fun expiresAt =>
    (host.parseDate expiresAt).any (· ≤ surroundings.now)
  match expired, record.sourcePath with
  | some expiresAt, _ => ⟨entry, .stale, some (js "expired " ++ expiresAt)⟩
  | none, none => ⟨entry, .active, none⟩
  | none, some path =>
      match surroundings.file path with
      | .error message =>
          ⟨entry, .stale, some (js "source is no longer safe: " ++ message)⟩
      | .ok current =>
          if current.isSome ∧ current = record.sourceSha256 then ⟨entry, .active, none⟩
          else ⟨entry, .stale, some (js "source changed after evidence registration")⟩

/-- The last time a check was invalidated. -/
def invalidatedAt (invalidations : List (Entry InvalidationRecord)) (node : Text) : Option Int :=
  ((invalidations.filter fun entry => node ∈ entry.record.affected).filterMap
    fun entry => host.parseDate entry.record.recordedAt).max?

/-- Evidence from before an invalidation of its check does not count.  A time
of zero is not a time. -/
def matchingEvidence (surroundings : Surroundings) (last : Option Int)
    (entry : Entry EvidenceRecord) : EvidenceView :=
  let state := evidenceState host surroundings entry
  if last.any fun time =>
      time ≠ 0 && (host.parseDate entry.record.observedAt).any (· ≤ time) then
    { state with
      status := .invalidated
      reason := some (js "dependency cone invalidated this evidence") }
  else state

def evaluateCheck (workspace : Workspace) (surroundings : Surroundings) (phaseId : Text)
    (check : CheckDefinition) : CheckEvaluation :=
  let last := invalidatedAt host workspace.invalidations (checkNode phaseId check.id)
  let matched := (workspace.evidence.filter fun candidate =>
      candidate.record.phase = phaseId && candidate.record.check = check.id
        && candidate.sha256 ∉ supersededEvidence workspace.evidence).map
    (matchingEvidence host surroundings last)
  let active := matched.filter (·.status = .active)
  let decision : Option EvidenceDecision :=
    active.reverse.findSome? fun view => view.entry.record.decision
  let accepted := active.filter fun view =>
    view.entry.record.assurance ∈ check.acceptedAssurance && view.entry.record.decision.isNone
  let answer := check.applicability.bind (mapGet workspace.initiative.applicability)
  let status : CheckStatus :=
    match decision with
    | some .notApplicable => .notApplicable
    | some .waived => .waived
    | none =>
        if answer = some false then .notApplicable
        else if accepted ≠ [] then .satisfied
        else if check.applicability.isSome ∧ answer = none then .unanswered
        else if check.requirement = .optional then .optional
        else if matched.any (·.status = .stale) then .stale
        else .missing
  ⟨check, status, matched⟩

def phaseDefinition (initiative : Initiative) (phaseId : Text) : Except Failure PhaseDefinition :=
  match initiative.resolution.phase? phaseId with
  | none => .error (refuse (js "Unknown initiative phase '" ++ phaseId ++ js "'."))
  | some phase => .ok phase

def outputDefinition (initiative : Initiative) (phaseId outputId : Text) :
    Except Failure OutputDefinition := do
  let phase ← phaseDefinition initiative phaseId
  match phase.output? outputId with
  | none => .error (refuse (js "Unknown initiative output '" ++ phaseId ++ js "/" ++ outputId
      ++ js "'."))
  | some output => .ok output

def evaluateInitiativeChecklist (workspace : Workspace) (surroundings : Surroundings)
    (phase : PhaseDefinition) : List CheckEvaluation :=
  phase.checklist.map (evaluateCheck host workspace surroundings phase.id)

/-! ## What is hashed -/

def OutputStatus.text : OutputStatus → Text
  | .notGenerated => js "not_generated"
  | .published => js "published"
  | .approved => js "approved"
  | .stale => js "stale"

def Requirement.text : Requirement → Text
  | .must => js "must"
  | .optional => js "optional"
  | .conditional => js "conditional"

def Gate.text : Gate → Text
  | .off => js "off"
  | .warn => js "warn"
  | .block => js "block"

def Assurance.text : Assurance → Text
  | .machineVerified => js "machine-verified"
  | .systemVerified => js "system-verified"
  | .humanApproved => js "human-approved"
  | .presenceOnly => js "presence-only"

def EvidenceDecision.text : EvidenceDecision → Text
  | .notApplicable => js "not_applicable"
  | .waived => js "waived"

def CheckStatus.text : CheckStatus → Text
  | .notApplicable => js "not_applicable"
  | .waived => js "waived"
  | .satisfied => js "satisfied"
  | .unanswered => js "unanswered"
  | .optional => js "optional"
  | .stale => js "stale"
  | .missing => js "missing"

def Milestone.text : Milestone → Text
  | .verification => js "verification"
  | .conformance => js "conformance"

def EvidenceView.toValue (view : EvidenceView) : Value :=
  .obj [(js "sha256", .str view.entry.sha256),
    (js "assurance", .str view.entry.record.assurance.text),
    (js "status", .str view.status.text), (js "reason", textOrNull view.reason),
    (js "observedAt", .str view.entry.record.observedAt),
    (js "expiresAt", textOrNull view.entry.record.expiresAt),
    (js "decision", textOrNull (view.entry.record.decision.map EvidenceDecision.text))]

/-- A check as it is listed, which is what an approval of it is about. -/
def CheckEvaluation.toValue (check : CheckEvaluation) : Value :=
  .obj [(js "id", .str check.definition.id), (js "label", .str check.definition.label),
    (js "requirement", .str check.definition.requirement.text),
    (js "gate", .str check.definition.gate.text), (js "status", .str check.status.text),
    (js "applicabilityPolicy", textOrNull check.definition.applicability),
    (js "acceptedAssurance",
      .arr (check.definition.acceptedAssurance.map fun assurance => .str assurance.text)),
    (js "evidence", .arr (check.evidence.map EvidenceView.toValue))]

/-- Sorted by a text, as `localeCompare` orders it. -/
def localeSort {α : Type} (name : α → Text) (l : List α) : List α :=
  l.insertionSort fun a b => host.localeLe (name a) (name b) = true

def sortedTexts (l : List Text) : Value := .arr ((l.insertionSort LeUnits).map Value.str)

/-! ## Packs -/

structure PackMember where
  member : Text
  output : Option Output

def PackMember.toValue (entry : PackMember) : Value :=
  .obj [(js "member", .str entry.member),
    (js "status", .str ((entry.output.map (·.status.text)).getD (js "missing"))),
    (js "generation", natValue ((entry.output.map Output.generation).getD 0)),
    (js "sha256", textOrNull (entry.output.bind Output.sha256))]

def Initiative.output? (initiative : Initiative) (reference : Text) : Option Output :=
  (initiative.phase? (referencePhase reference)).bind fun phase =>
    phase.output? (referenceOutput reference)

/-- A published output, with its hash. -/
def Output.available (output : Output) : Bool :=
  output.sha256.isSome && (output.status = .published || output.status = .approved)

def packMembers (initiative : Initiative) (pack : Pack) : List PackMember :=
  localeSort host PackMember.member
    (pack.members.map fun member => ⟨member, initiative.output? member⟩)

def packValue (initiative : Initiative) (pack : Pack) : Value :=
  .obj [(js "initiativeId", .str initiative.id), (js "pack", .str pack.id),
    (js "members", .arr ((packMembers host initiative pack).map PackMember.toValue))]

/-- The members of a pack that the profile requires. -/
def requiredMembers (initiative : Initiative) (pack : Pack) : Except Failure (List Text) := do
  let needed ← sequence (pack.members.map fun member => do
    let output ← outputDefinition initiative (referencePhase member) (referenceOutput member)
    .ok (member, initiativeOutputRequired initiative (referencePhase member) output.id
      output.required))
  .ok ((needed.filter Prod.snd).map Prod.fst)

structure PackBundle where
  sha256 : Text
  missing : List Text

def initiativePackBundle (initiative : Initiative) (pack : Pack) : Except Failure PackBundle := do
  let required ← requiredMembers initiative pack
  .ok
    { sha256 := host.recordSha256 (packValue host initiative pack)
      missing := ((packMembers host initiative pack).filter fun entry =>
        entry.member ∈ required && !entry.output.any Output.available).map PackMember.member }

/-- The last phase that has a member of the pack. -/
def packTerminalPhase (resolution : Resolution) (pack : Pack) : Option Text :=
  (resolution.phases.reverse.find? fun phase =>
    pack.members.any fun member => referencePhase member = phase.id).map PhaseDefinition.id

def packsTerminatingAt (resolution : Resolution) (phaseId : Text) : List Pack :=
  resolution.packs.filter fun pack => packTerminalPhase resolution pack = some phaseId

/-! ## Phases -/

def Output.toValue (output : Output) : Value :=
  .obj [(js "id", .str output.id), (js "required", .bool output.required),
    (js "status", .str output.status.text), (js "generation", natValue output.generation),
    (js "sha256", textOrNull output.sha256)]

def bundledCheck (check : CheckEvaluation) : Value :=
  .obj [(js "id", .str check.definition.id), (js "status", .str check.status.text),
    (js "evidence",
      sortedTexts ((check.evidence.filter (·.status = .active)).map (·.entry.sha256)))]

def bundledContract (contract : Contract) : Value :=
  .obj [(js "id", .str contract.id), (js "version", .str contract.version),
    (js "sha256", .str contract.sha256), (js "status", .str contract.status)]

def bundledStory (milestone : Milestone) (story : ChildStory) : Value :=
  .obj [(js "id", .str story.id), (js "repository", .str story.repository),
    (js "blocking", .bool true), (js "milestone", .str milestone.text),
    (js "reached", .bool (milestone ∈ story.milestones)), (js "stale", .bool story.stale)]

/-- A node of a phase: the phase itself, or one whose text has `:phase/`. -/
def concerns (phaseId node : Text) : Bool :=
  node.tails.any ((0x3A :: phaseId ++ [0x2F]).isPrefixOf ·) || node = phaseNode phaseId

structure Bundle where
  sha256 : Text
  checklist : List CheckEvaluation
  approvals : List (Entry ApprovalRecord)
  invalidatedApprovals : List Text

/-- The Stories whose specifications a planning phase includes. -/
def plannedSpecifications (definition : PhaseDefinition) (phase : Phase)
    (surroundings : Surroundings) : Except Failure (List Value) :=
  if isEpicPlanningPhase definition
      && ((phase.output? (js "story-specification-index")).bind Output.sha256).isSome then
    surroundings.storySpecifications
  else .ok []

def bundleValue (workspace : Workspace) (phase : Phase) (checklist : List CheckEvaluation)
    (specifications : List Value) : Value :=
  let initiative := workspace.initiative
  let milestone := requiredInitiativeMilestone phase.id initiative
  .obj [(js "initiativeId", .str initiative.id), (js "phase", .str phase.id),
    (js "generation", natValue phase.generation),
    (js "outputs", .arr ((localeSort host Output.id phase.outputs).map Output.toValue)),
    (js "checklist", .arr (checklist.map bundledCheck)),
    (js "evidence", sortedTexts ((workspace.evidence.filter fun entry =>
      entry.record.phase = phase.id).map Entry.sha256)),
    (js "invalidations", sortedTexts ((workspace.invalidations.filter fun entry =>
      entry.record.affected.any (concerns phase.id)).map Entry.sha256)),
    (js "storySpecifications", .arr specifications),
    (js "contracts", .arr (match milestone with
      | none => []
      | some _ => (localeSort host Contract.id initiative.contracts).map bundledContract)),
    (js "children", .arr (match milestone with
      | none => []
      | some milestone => (localeSort host ChildStory.id
          (initiative.childStories.filter ChildStory.blocking)).map (bundledStory milestone)))]

def phaseOf (initiative : Initiative) (phaseId : Text) : Except Failure Phase :=
  match initiative.phase? phaseId with
  | none => .error (.typeError (js "Cannot read properties of undefined"))
  | some phase => .ok phase

def initiativeBundle (workspace : Workspace) (surroundings : Surroundings) (phaseId : Text) :
    Except Failure Bundle := do
  let definition ← phaseDefinition workspace.initiative phaseId
  let phase ← phaseOf workspace.initiative phaseId
  let checklist := evaluateInitiativeChecklist host workspace surroundings definition
  let specifications ← plannedSpecifications definition phase surroundings
  .ok
    { sha256 := host.recordSha256 (bundleValue host workspace phase checklist specifications)
      checklist
      approvals := workspace.approvals
      invalidatedApprovals := invalidatedApprovals workspace.invalidations }

end Initiatives

end SingularityFlow
