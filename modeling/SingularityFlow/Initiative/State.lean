/-
# The profile and the state of an Initiative

An Initiative works through the phases of a profile.  A phase produces
outputs, is published, and is approved.  An output may consume outputs of
other phases, written `phase/output`.  The profile is resolved when the
Initiative is created, and its resolution stays with the state.

A state is only loaded when its phases are those of its resolution, in that
order; `Initiative.phaseOrder_eq` is that check.
-/
import SingularityFlow.Errors
import SingularityFlow.Lib.Collections
import SingularityFlow.Lib.Json
import SingularityFlow.Lib.NumberText

namespace SingularityFlow

open Ecma

namespace Initiatives

/-! ## What the host answers -/

/-- The tables of Unicode, the order of `localeCompare`, `Date.parse`, `path.join`,
and the hash of a record. -/
structure Host where
  tables : UnicodeTables
  localeLe : Text → Text → Bool
  parseDate : Text → Option Int
  joinPath : List Text → Text
  recordSha256 : Value → Text

/-! ## Profiles -/

inductive ApprovalMode where
  | individual | bundle | none
deriving DecidableEq

/-- A step of a chain of reviews: so many members of one authority sign. -/
structure ChainStep where
  authority : Text
  label : Text
  minimum : Nat
deriving DecidableEq

structure ApprovalPolicy where
  mode : ApprovalMode
  authorities : List Text
  minimum : Nat
  allowSelfApproval : Bool
  chain : Option (List ChainStep)
deriving DecidableEq

structure OutputDefinition where
  id : Text
  path : Text
  consumes : List Text
  required : Bool
  approval : ApprovalPolicy

inductive Requirement where
  | must | optional | conditional
deriving DecidableEq

inductive Gate where
  | off | warn | block
deriving DecidableEq

inductive Assurance where
  | machineVerified | systemVerified | humanApproved | presenceOnly
deriving DecidableEq

structure CheckDefinition where
  id : Text
  label : Text
  requirement : Requirement
  /-- The policy whose answer says whether a conditional check applies. -/
  applicability : Option Text
  acceptedAssurance : List Assurance
  gate : Gate
  approval : ApprovalPolicy

structure PhaseDefinition where
  id : Text
  outputs : List OutputDefinition
  checklist : List CheckDefinition
  bundleApproval : ApprovalPolicy

/-- A set of outputs that is reviewed as one. -/
structure Pack where
  id : Text
  members : List Text
  approval : ApprovalPolicy

def isSafeUnit (u : UInt16) : Bool :=
  (0x30 ≤ u.toNat && u.toNat ≤ 0x39) || (0x41 ≤ u.toNat && u.toNat ≤ 0x5A)
    || (0x61 ≤ u.toNat && u.toNat ≤ 0x7A) || u = 0x2E || u = 0x5F || u = 0x2D

/-- `/^[A-Za-z0-9][A-Za-z0-9._-]{0,127}$/`. -/
def isSafeId : Text → Bool
  | [] => false
  | u :: rest => isSafeUnit u && u ∉ [0x2E, 0x5F, 0x2D] && rest.length ≤ 127 && rest.all isSafeUnit

/-- A resolved profile.  The phases of a profile are named once each, by safe
identifiers. -/
structure Resolution where
  id : Text
  phases : List PhaseDefinition
  packs : List Pack
  /-- The addresses of the members of each authority. -/
  approvalAuthorities : List (Text × List Text)
  nonempty : phases ≠ []
  ids_nodup : (phases.map PhaseDefinition.id).Nodup
  ids_safe : ∀ phase ∈ phases, isSafeId phase.id = true

namespace Resolution

def phase? (resolution : Resolution) (id : Text) : Option PhaseDefinition :=
  resolution.phases.find? (·.id = id)

end Resolution

def PhaseDefinition.output? (phase : PhaseDefinition) (id : Text) : Option OutputDefinition :=
  phase.outputs.find? (·.id = id)

def PhaseDefinition.check? (phase : PhaseDefinition) (id : Text) : Option CheckDefinition :=
  phase.checklist.find? (·.id = id)

/-! ## References -/

/-- The first part of a reference, `reference.split('/')[0]`. -/
def referencePhase (reference : Text) : Text := reference.takeWhile (· ≠ 0x2F)

/-- The second part, where there is one. -/
def referenceOutput? (reference : Text) : Option Text :=
  match reference.dropWhile (· ≠ 0x2F) with
  | [] => none
  | _ :: rest => some (rest.takeWhile (· ≠ 0x2F))

/-- The property that an absent second part names. -/
def referenceOutput (reference : Text) : Text := (referenceOutput? reference).getD (js "undefined")

/-! ## States -/

structure Actor where
  name : Option Text
  email : Option Text
deriving DecidableEq

def actorEmail (host : Host) (actor : Actor) : Option Text :=
  actor.email.map fun email => host.tables.toLowerCase (trim email)

inductive OutputStatus where
  | notGenerated | published | approved | stale
deriving DecidableEq

structure Output where
  id : Text
  path : Text
  required : Bool
  status : OutputStatus
  generation : Nat
  sha256 : Option Text
  generatedBy : Option Actor
deriving DecidableEq

inductive PhaseStatus where
  | notStarted | inProgress | awaitingApproval | approved | stale | skipped
deriving DecidableEq

structure Phase where
  id : Text
  status : PhaseStatus
  generation : Nat
  /-- The outputs that were selected, once a selection was made. -/
  included : Option (List Text)
  outputs : List Output
deriving DecidableEq

/-- The hashes that are recorded for the outputs of a phase. -/
def Phase.hashes (phase : Phase) : List (Text × Option Text) :=
  phase.outputs.map fun output => (output.id, output.sha256)

def Phase.output? (phase : Phase) (id : Text) : Option Output := phase.outputs.find? (·.id = id)

inductive InitiativeStatus where
  | inProgress | complete
deriving DecidableEq

/-- A contract between repositories. -/
structure Contract where
  id : Text
  version : Text
  sha256 : Text
  status : Text
  consumers : List Text
  producers : List Text

inductive Milestone where
  | verification | conformance
deriving DecidableEq

structure ChildStory where
  id : Text
  repository : Text
  blocking : Bool
  dependsOn : List Text
  milestones : List Milestone
  stale : Bool

structure Initiative where
  id : Text
  resolution : Resolution
  status : InitiativeStatus
  currentPhase : Option Text
  phases : List Phase
  contracts : List Contract
  childStories : List ChildStory
  /-- Whether the policies that were answered apply. -/
  applicability : List (Text × Bool)
  phaseOrder_eq : phases.map Phase.id = resolution.phases.map PhaseDefinition.id

namespace Initiative

def phase? (initiative : Initiative) (id : Text) : Option Phase :=
  initiative.phases.find? (·.id = id)

theorem ids_nodup (initiative : Initiative) : (initiative.phases.map Phase.id).Nodup :=
  initiative.phaseOrder_eq ▸ initiative.resolution.ids_nodup

/-- Write the phases, which stay the same ones in the same order. -/
def mapPhases (initiative : Initiative) (f : Phase → Phase) (hid : ∀ phase, (f phase).id = phase.id) :
    Initiative :=
  { initiative with
    phases := initiative.phases.map f
    phaseOrder_eq := by
      rw [List.map_map, ← initiative.phaseOrder_eq]
      exact List.map_congr_left fun phase _ => hid phase }

/-- Write one phase. -/
def update (initiative : Initiative) (id : Text) (f : Phase → Phase)
    (hid : ∀ phase, (f phase).id = phase.id) : Initiative :=
  initiative.mapPhases (fun phase => if phase.id = id then f phase else phase) fun phase => by
    split
    · exact hid phase
    · rfl

end Initiative

/-! ## Policy -/

def hasContract (phase : PhaseDefinition) (outputs : List Text) (check : Text) : Bool :=
  outputs.all (fun id => phase.outputs.any (·.id = id)) && phase.checklist.any (·.id = check)

def isEpicPlanningPhase (phase : PhaseDefinition) : Bool :=
  hasContract phase [js "story-specification-index"] (js "story-specifications-complete")

def usesEpicPlanningLifecycle (resolution : Resolution) : Bool :=
  resolution.phases.any isEpicPlanningPhase

def epicIntakeAllowsEmptyArtifacts (initiative : Initiative) (phaseId : Text) : Bool :=
  usesEpicPlanningLifecycle initiative.resolution && phaseId = js "epic-intake"

/-- Whether an output must be there before its phase can advance.  The output
is given by its identifier and by what its definition, or its record, says. -/
def initiativeOutputRequired (initiative : Initiative) (phaseId outputId : Text) (required : Bool) :
    Bool :=
  if epicIntakeAllowsEmptyArtifacts initiative phaseId then false
  else
    match (initiative.phase? phaseId).bind Phase.included with
    | some included => outputId ∈ included
    | none => required

/-! ## Milestones -/

/-- The milestones that phases without outputs wait for, by their identifiers. -/
def legacyMilestones : List (Text × Milestone) :=
  [(js "build", .verification), (js "construction", .verification),
    (js "release", .conformance), (js "delivery", .conformance)]

def requiredInitiativeMilestone (phaseId : Text) (initiative : Initiative) : Option Milestone :=
  let outputs := ((initiative.phase? phaseId).map fun phase => phase.outputs.map Output.id).getD []
  if js "initiative-conformance" ∈ outputs then some .conformance
  else if js "implementation-index" ∈ outputs then some .verification
  else if outputs = [] then mapGet legacyMilestones phaseId
  else none

def milestonePhases (initiative : Initiative) : List Text :=
  (initiative.phases.map Phase.id).filter fun id =>
    (requiredInitiativeMilestone id initiative).isSome

/-! ## Creation -/

variable (host : Host)

/-- The outputs of a phase are properties of one object.  A state whose
resolution has two outputs of one name is never loaded. -/
def phaseState (definition : PhaseDefinition) (index : Nat) : Phase :=
  { id := definition.id
    status := if index = 0 then .inProgress else .notStarted
    generation := 0
    included := none
    outputs := definition.outputs.map fun output =>
      { id := output.id
        path := host.joinPath [js "artifacts", definition.id, output.path]
        required := output.required
        status := .notGenerated
        generation := 0
        sha256 := none
        generatedBy := none } }

/-- The phases at the start: those before the entry are skipped. -/
def startPhases (resolution : Resolution) (entryIndex : Nat) : List Phase :=
  resolution.phases.mapIdx fun index definition =>
    let phase := phaseState host definition index
    if index < entryIndex then { phase with status := .skipped } else phase

theorem map_id_startPhases (resolution : Resolution) (entryIndex : Nat) :
    (startPhases host resolution entryIndex).map Phase.id
      = resolution.phases.map PhaseDefinition.id := by
  refine List.ext_getElem (by simp [startPhases]) fun i h h' => ?_
  simp only [startPhases, List.getElem_map, List.getElem_mapIdx]
  split <;> rfl

/-- Where the lifecycle is entered. -/
def entryIndex (resolution : Resolution) : Option Text → Option Nat
  | none => some 0
  | some startPhase => resolution.phases.findIdx? (·.id = startPhase)

def createInitiative (id : Text) (resolution : Resolution) (startPhase : Option Text) :
    Except Failure Initiative :=
  match entryIndex resolution startPhase with
  | none => .error (refuse (js "Profile '" ++ resolution.id ++ js "' has no phase '"
      ++ startPhase.getD [] ++ js "'. Its phases are: "
      ++ joinWith (js ", ") (resolution.phases.map PhaseDefinition.id) ++ js "."))
  | some entry => .ok
      { id
        resolution
        status := .inProgress
        currentPhase := (resolution.phases[entry]?).map PhaseDefinition.id
        phases := startPhases host resolution entry
        contracts := []
        childStories := []
        applicability := []
        phaseOrder_eq := map_id_startPhases host resolution entry }

end Initiatives

end SingularityFlow
