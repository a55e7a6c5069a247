/-
# Work-interval baselines

A work interval measures the developer's work from one commit.  What was
pinned when it was opened stands in a baseline record, a JSON file, which is
sealed by the SHA-256 of its core: all of its fields but four.  The workflow
holds the current interval beside it, and `verifyWorkIntervalBaseline`
compares the two.

Three operations write: `ensureWorkIntervalBaseline` opens an interval,
`amendWorkIntervalBaseline` moves it to a later generation, and
`acknowledgeAmendment` notes that someone read of it.

The files of the repository are a map from paths to records; records are
kept as data, since all of their values survive `JSON.stringify` and
`JSON.parse`.
-/
import SingularityFlow.Generation
import SingularityFlow.Lib.Collections
import SingularityFlow.Lib.Sha256
import SingularityFlow.Lib.Json

namespace SingularityFlow

open Ecma

namespace WorkIntervals

/-! ## Hashes -/

mutual

/-- `canonical`: the members of every object, sorted by name. -/
def canonical : Value → Value
  | .arr items => .arr (canonicalItems items)
  | .obj members => .obj (sortMembers (canonicalMembers members))
  | v => v

def canonicalItems : List Value → List Value
  | [] => []
  | v :: rest => canonical v :: canonicalItems rest

def canonicalMembers : List (Text × Value) → List (Text × Value)
  | [] => []
  | (name, v) :: rest => (name, canonical v) :: canonicalMembers rest

end

def hash (v : Value) : Text := sha256Hex (textEncode (stringify [] (canonical v)))

def prefixedHash (v : Value) : Text := js "sha256:" ++ hash v

/-! ## Records -/

def textsJson (texts : List Text) : Value := .arr (texts.map .str)

/-- `text ?? null`. -/
def nullable : Option Text → Value
  | some t => .str t
  | none => .null

def integerJson (n : Int) : Value := .num (Number.ofInt n)

structure Amendment where
  atTime : Text
  fromGeneration : Int
  toGeneration : Int
  clauses : List Text
  author : Option Text
  reason : Option Text
deriving DecidableEq

def Amendment.json (event : Amendment) : Value :=
  .obj [(js "at", .str event.atTime), (js "fromGeneration", integerJson event.fromGeneration),
    (js "toGeneration", integerJson event.toGeneration), (js "clauses", textsJson event.clauses),
    (js "author", nullable event.author), (js "reason", nullable event.reason)]

structure Acknowledgement where
  atTime : Text
  actor : Text
  throughGeneration : Int
deriving DecidableEq

def Acknowledgement.json (event : Acknowledgement) : Value :=
  .obj [(js "at", .str event.atTime), (js "actor", .str event.actor),
    (js "throughGeneration", integerJson event.throughGeneration)]

structure Reconciliation where
  changedPathLimit : Nat
  escalationTarget : Option Text
deriving DecidableEq

def Reconciliation.json (policy : Reconciliation) : Value :=
  .obj [(js "changedPathLimit", integerJson policy.changedPathLimit),
    (js "escalationTarget", nullable policy.escalationTarget),
    (js "localProvidersOnly", .bool true)]

/-- The fields of a baseline that its hash covers.  The last three are absent
until an amendment and an acknowledgement write them. -/
structure BaselineCore where
  schemaVersion : Nat
  kind : Text
  intervalId : Text
  workId : Text
  workType : Text
  railId : Text
  phaseId : Text
  generation : Int
  branch : Text
  sourceBaseCommit : Text
  configurationSha256 : Option Text
  sourceSha256 : Option Text
  templateSha256 : Option Text
  workflowSubjectRevision : Text
  protectedPaths : List Text
  requiredChecks : List Text
  requiredChecksSha256 : Text
  policySha256 : Text
  escalationLadderSha256 : Option Text
  reconciliationPolicy : Reconciliation
  amendments : Option (List Amendment)
  acknowledgements : Option (List Acknowledgement)
  acknowledgedGeneration : Option Int
deriving DecidableEq

/-- A member that is absent when its value is undefined. -/
def optional (name : String) (v : Option Value) : List (Text × Value) :=
  v.toList.map (js name, ·)

def BaselineCore.json (core : BaselineCore) : Value :=
  .obj ([(js "schemaVersion", integerJson core.schemaVersion), (js "kind", .str core.kind),
      (js "intervalId", .str core.intervalId), (js "workId", .str core.workId),
      (js "workType", .str core.workType), (js "railId", .str core.railId),
      (js "phaseId", .str core.phaseId), (js "generation", integerJson core.generation),
      (js "branch", .str core.branch), (js "sourceBaseCommit", .str core.sourceBaseCommit),
      (js "configurationSha256", nullable core.configurationSha256),
      (js "sourceSha256", nullable core.sourceSha256),
      (js "templateSha256", nullable core.templateSha256),
      (js "workflowSubjectRevision", .str core.workflowSubjectRevision),
      (js "protectedPaths", textsJson core.protectedPaths),
      (js "requiredChecks", textsJson core.requiredChecks),
      (js "requiredChecksSha256", .str core.requiredChecksSha256),
      (js "policySha256", .str core.policySha256),
      (js "escalationLadderSha256", nullable core.escalationLadderSha256),
      (js "reconciliationPolicy", core.reconciliationPolicy.json)]
    ++ optional "amendments" (core.amendments.map fun l => .arr (l.map (·.json)))
    ++ optional "acknowledgements" (core.acknowledgements.map fun l => .arr (l.map (·.json)))
    ++ optional "acknowledgedGeneration" (core.acknowledgedGeneration.map integerJson))

/-- A baseline record.  The fields beside the core are the ones that
`baselineCore` deletes. -/
structure Baseline where
  core : BaselineCore
  baselineSha256 : Text
  createdAt : Text
  path : Text
  status : Text
deriving DecidableEq

def baselineCore (record : Baseline) : BaselineCore := record.core

inductive IntervalStatus where
  | open | reconciled | closed
deriving DecidableEq

/-- The interval as the workflow holds it. -/
structure Interval where
  intervalId : Text
  phaseId : Text
  generation : Int
  baselineSha256 : Text
  sourceBaseCommit : Text
  escalationTarget : Option Text
  path : Text
  status : IntervalStatus
  amendments : Option (List Amendment)
  acknowledgements : Option (List Acknowledgement)
  acknowledgedGeneration : Option Int
deriving DecidableEq

/-- What the operations write: `workflow.workIntervals`, and the files. -/
structure World where
  current : Option Interval
  history : List Interval
  files : List (Text × Baseline)

/-! ## What the operations read -/

structure WorkItem where
  id : Text
  workType : Text

/-- `phase.approvalPolicy`, and the fields of it that are read. -/
structure StoredPolicy where
  json : Value
  mode : Option Text
  maximumChangedPaths : Option Nat

structure Phase where
  id : Text
  status : PhaseStatus
  generation : Option Nat
  generationHighWatermark : Option Nat
  testCommandRevalidation : Bool
  generationIntentConsumed : Bool
  writeScope : Option Text
  approvalPolicy : Option StoredPolicy
  qualityCommands : List Text
  templateSha256 : Option Text

/-- The configuration and the rest of the workflow, at the time of a call;
`phases` in the order of `phaseOrder`. -/
structure Facts where
  root : Text
  protectedPaths : List Text
  capabilityProtectedPaths : List Text
  hasFeatureWorkType : Bool
  workItem : WorkItem
  currentPhase : Text
  phases : List Phase
  requiredChecks : List Text
  configSha256 : Option Text
  sourceSha256 : Option Text
  templates : List (Text × Text)
  resolution : Value
  lineage : Value
  workItemJson : Value
  phaseJson : Value

def activePhase (workflow : Facts) (phaseId : Text) : Except Failure Phase :=
  match workflow.phases.find? (·.id = phaseId) with
  | some phase => .ok phase
  | none => .error (refuse (js "Story has no phase '" ++ phaseId ++ js "'."))

def generationFor (phase : Phase) : Except Failure Nat :=
  if phase.testCommandRevalidation && phase.generationIntentConsumed then
    .ok (max 1 (phase.generation.getD 0))
  else if phase.status = .inProgress then
    Story.nextPhaseGeneration phase.generation phase.generationHighWatermark
  else .ok (max 1 (phase.generation.getD 0))

def phaseUsesWorkInterval (phase : Phase) : Bool :=
  phase.writeScope.getD (js "artifact-only") = js "source-and-artifact"

def intervalRelative (itemRelative phaseId : Text) (generation : Nat) : Text :=
  itemRelative ++ js "/context/work-intervals/" ++ phaseId ++ js "-gen" ++ natText generation
    ++ js "-baseline.json"

/-- `[...new Set(texts)].sort()`. -/
def sortedSet (texts : List Text) : List Text := (distinct texts).insertionSort LeUnits

def protectedPaths (workflow : Facts) : List Text :=
  sortedSet (workflow.protectedPaths ++ workflow.capabilityProtectedPaths)

def requiredChecks (workflow : Facts) : List Text :=
  let current := workflow.phases.find? (·.id = workflow.currentPhase)
  sortedSet (workflow.requiredChecks ++ (current.map (·.qualityCommands)).getD [])

def workflowSubjectRevision (workflow : Facts) : Text :=
  prefixedHash (.obj [(js "workItem", workflow.workItemJson), (js "phase", workflow.phaseJson),
    (js "currentPhase", .str workflow.currentPhase), (js "resolution", workflow.resolution),
    (js "lineage", workflow.lineage)])

/-- The step a low-risk waiver policy signs off. -/
def lowRiskWaiverStep (workflow : Facts) : Option Phase :=
  workflow.phases.find? fun candidate =>
    (candidate.approvalPolicy.bind (·.mode)) = some (js "policy")

structure IntervalPolicy where
  protectedPaths : List Text
  approvalPolicy : Value
  reconciliation : Reconciliation

def IntervalPolicy.json (policy : IntervalPolicy) : Value :=
  .obj [(js "protectedPaths", textsJson policy.protectedPaths),
    (js "approvalPolicy", policy.approvalPolicy),
    (js "reconciliation", policy.reconciliation.json)]

def intervalPolicy (workflow : Facts) (phase : Phase) : IntervalPolicy where
  protectedPaths := protectedPaths workflow
  approvalPolicy := (phase.approvalPolicy.map (·.json)).getD (.obj [])
  reconciliation :=
    let waiver := (lowRiskWaiverStep workflow).bind (·.approvalPolicy)
    { changedPathLimit := ((waiver.bind (·.maximumChangedPaths)).or
        (phase.approvalPolicy.bind (·.maximumChangedPaths))).getD 5
      escalationTarget := if (lowRiskWaiverStep workflow).isSome && workflow.hasFeatureWorkType
        then some (js "feature") else none }

/-! ## Verification -/

/-- The files at `current.path`; `secureRepositoryPath` and the place of the
file inside the Story directory are not looked at here. -/
def baselineFile (world : World) (path : Text) : Option Baseline := mapGet world.files path

/-- The messages of the expectations that fail, in order. -/
def expectations (checks : List (Bool × String)) : List Text :=
  checks.filterMap fun p => if p.1 then none else some (js p.2)

def baselineFailures (workflow : Facts) (phase : Phase) (current : Interval) (record : Baseline) :
    List Text :=
  let expectedPolicy := intervalPolicy workflow phase
  let expectedChecks := requiredChecks workflow
  expectations
    [(record.core.kind = js "work-interval-baseline", "record kind changed"),
      (record.path = current.path, "record path changed"),
      (record.core.workId = workflow.workItem.id, "work ID changed"),
      (record.core.intervalId = current.intervalId, "interval ID changed"),
      (record.core.phaseId = phase.id, "phase changed"),
      (record.core.generation = current.generation, "generation changed"),
      (record.core.sourceBaseCommit = current.sourceBaseCommit, "source base commit changed"),
      (record.baselineSha256 = current.baselineSha256, "state baseline hash changed"),
      (record.core.requiredChecksSha256 = prefixedHash (textsJson expectedChecks),
        "required-check policy changed"),
      (record.core.policySha256 = prefixedHash expectedPolicy.json,
        "work-interval policy changed"),
      (record.baselineSha256 = hash (baselineCore record).json,
        "baseline content hash cannot be reproduced")]

structure Verified where
  path : Text
  sha256 : Text
  sourceBaseCommit : Text
deriving DecidableEq

/-- `failures.join('\n- ')`. -/
def joinFailures : List Text → Text
  | [] => []
  | [t] => t
  | t :: rest => t ++ js "\n- " ++ joinFailures rest

def verifyWorkIntervalBaseline (workflow : Facts) (phaseId : Text) (allowReconciled : Bool)
    (world : World) : Except Failure Verified := do
  let phase ← activePhase workflow phaseId
  match world.current with
  | none => .error (refuse (js "Phase '" ++ phase.id ++ js "' has no open work interval."))
  | some current => do
      failIf (current.phaseId ≠ phase.id ∨ ¬ (current.status = .open ∨
          (allowReconciled = true ∧ current.status = .reconciled)))
        (refuse (js "Phase '" ++ phase.id ++ js "' has no open work interval."))
      match baselineFile world current.path with
      | none =>
          .error (refuse (js "Work-interval baseline does not exist: " ++ current.path))
      | some record => do
          let failures := baselineFailures workflow phase current record
          failIf (failures ≠ [])
            (refuse (js "Work-interval baseline integrity check failed for " ++ current.path
              ++ js ":\n- " ++ joinFailures failures))
          .ok ⟨current.path, record.baselineSha256, record.core.sourceBaseCommit⟩

/-! ## Opening an interval -/

/-- `/^[a-z0-9][a-z0-9-]{0,95}$/u`. -/
def isBaselineTag : Text → Bool
  | [] => false
  | u :: rest => isLowerAlnum u && rest.all (fun v => isLowerAlnum v || v = 0x2D) && rest.length ≤ 95

/-- The options of a call, and what it reads from the clock and the repository. -/
structure Opening where
  phaseId : Text
  itemRelative : Text
  sourceBaseCommit : Text
  baselineTag : Option Text
  branch : Text
  now : Text

/-- The current interval is the open one of the phase and the generation. -/
def isOpenFor (current : Interval) (phase : Phase) (generation : Nat) : Bool :=
  current.phaseId = phase.id && current.generation = generation && current.status = .open

def openingCore (workflow : Facts) (phase : Phase) (options : Opening) (generation ordinal : Nat) :
    BaselineCore :=
  let number := natText ordinal
  let checks := requiredChecks workflow
  let policy := intervalPolicy workflow phase
  { schemaVersion := 1
    kind := js "work-interval-baseline"
    intervalId := js "INT-" ++ phase.id ++ js "-G" ++ natText generation ++ js "-"
      ++ zeros (3 - number.length) ++ number
    workId := workflow.workItem.id
    workType := workflow.workItem.workType
    railId := workflow.workItem.workType
    phaseId := phase.id
    generation
    branch := options.branch
    sourceBaseCommit := options.sourceBaseCommit
    configurationSha256 := workflow.configSha256
    sourceSha256 := workflow.sourceSha256
    templateSha256 := (mapGet workflow.templates phase.id).or phase.templateSha256
    workflowSubjectRevision := workflowSubjectRevision workflow
    protectedPaths := policy.protectedPaths
    requiredChecks := checks
    requiredChecksSha256 := prefixedHash (textsJson checks)
    policySha256 := prefixedHash policy.json
    escalationLadderSha256 := policy.reconciliation.escalationTarget.map fun target =>
      prefixedHash (textsJson [workflow.workItem.workType, target])
    reconciliationPolicy := policy.reconciliation
    amendments := none
    acknowledgements := none
    acknowledgedGeneration := none }

/-- The file and the interval that are written. -/
def openInterval (workflow : Facts) (phase : Phase) (options : Opening) (generation : Nat)
    (world : World) : Interval × World :=
  let relative := intervalRelative options.itemRelative
    (match options.baselineTag with
      | some tag => phase.id ++ js "-" ++ tag
      | none => phase.id) generation
  let core := openingCore workflow phase options generation (world.history.length + 1)
  let record : Baseline := ⟨core, hash core.json, options.now, relative, js "open"⟩
  let current : Interval :=
    { intervalId := core.intervalId
      phaseId := phase.id
      generation
      baselineSha256 := record.baselineSha256
      sourceBaseCommit := options.sourceBaseCommit
      escalationTarget := core.reconciliationPolicy.escalationTarget
      path := relative
      status := .open
      amendments := none
      acknowledgements := none
      acknowledgedGeneration := none }
  (current, ⟨some current, world.history ++ [current], mapSet world.files relative record⟩)

def ensureWorkIntervalBaseline (workflow : Facts) (options : Opening) (world : World) :
    Except Failure (Option Interval × World) :=
  if options.phaseId = [] then .ok (none, world)
  else do
    let phase ← activePhase workflow options.phaseId
    if phaseUsesWorkInterval phase = false then .ok (none, world)
    else do
      let generation ← generationFor phase
      if world.current.any (isOpenFor · phase generation) then .ok (world.current, world)
      else do
        failIf (options.baselineTag.any (fun tag => !isBaselineTag tag) = true)
          (refuse (js "Work-interval baseline tag must be a bounded portable identifier."))
        let (current, written) := openInterval workflow phase options generation world
        .ok (some current, written)

/-! ## Amendments and acknowledgements -/

/-- `readRecord(…, await readJson(file))`, of a record of the current version. -/
def readBaseline (workflow : Facts) (world : World) (path : Text) : Except Failure Baseline :=
  match baselineFile world path with
  | some record => .ok record
  | none => .error (refuse (js "Required file not found: " ++ workflow.root ++ js "/" ++ path))

/-- The interval that an amendment or an acknowledgement of a phase is about. -/
def openFor (world : World) (phaseId : Text) : Option Interval :=
  world.current.filter fun current => current.phaseId = phaseId ∧ current.status = .open

structure AmendOptions where
  phaseId : Text
  toGeneration : Option Number
  clauses : List Text
  author : Option Text
  reason : Option Text
  atTime : Text

def amendmentInvalid (message : Text) : Failure :=
  .singularityFlow message (some (js "WORK_INTERVAL_AMENDMENT_INVALID"))

/-- The record and the interval after an amendment. -/
def applyAmendment (options : AmendOptions) (toGeneration : Int) (current : Interval)
    (record : Baseline) (world : World) : Interval × World :=
  let event : Amendment :=
    ⟨options.atTime, current.generation, toGeneration, options.clauses.insertionSort LeUnits,
      options.author, options.reason⟩
  let amendments := record.core.amendments.getD [] ++ [event]
  let amended := { record.core with generation := toGeneration, amendments := some amendments }
  let next : Baseline := { record with core := amended, baselineSha256 := hash amended.json }
  let interval :=
    { current with
      generation := toGeneration
      baselineSha256 := next.baselineSha256
      amendments := some amendments }
  (interval, { world with current := some interval, files := mapSet world.files current.path next })

def amendWorkIntervalBaseline (workflow : Facts) (options : AmendOptions) (world : World) :
    Except Failure (Option Interval × World) :=
  match openFor world options.phaseId with
  | none => .ok (none, world)
  | some current =>
      match options.toGeneration.bind Number.integer? with
      | none =>
          .error (amendmentInvalid
            (js "An amended interval needs the generation it is moving to."))
      | some toGeneration => do
          failIf (toGeneration ≤ current.generation)
            (amendmentInvalid (js "An amendment moves an interval forward; generation "
              ++ (Number.ofInt toGeneration).text ++ js " is not after "
              ++ (Number.ofInt current.generation).text ++ js "."))
          let record ← readBaseline workflow world current.path
          let (interval, written) := applyAmendment options toGeneration current record world
          .ok (some interval, written)

structure AcknowledgeOptions where
  phaseId : Text
  throughGeneration : Option Number
  actor : Text
  atTime : Text

/-- What an acknowledgement returns: the interval, and whether it was written. -/
structure Acknowledged where
  interval : Interval
  acknowledged : Bool
deriving DecidableEq

/-- The generation that an acknowledgement reaches, if it is an integer. -/
def acknowledgementTarget (options : AcknowledgeOptions) (latest : Int) : Option Int :=
  match options.throughGeneration with
  | none => some latest
  | some through => through.integer?

/-- The record and the interval after an acknowledgement.  The hash stays. -/
def applyAcknowledgement (options : AcknowledgeOptions) (target : Int) (current : Interval)
    (record : Baseline) (world : World) : Interval × World :=
  let acknowledgements := record.core.acknowledgements.getD []
    ++ [⟨options.atTime, options.actor, target⟩]
  let core :=
    { record.core with
      acknowledgements := some acknowledgements
      acknowledgedGeneration := some target }
  let interval :=
    { current with
      acknowledgedGeneration := some target
      acknowledgements := some acknowledgements }
  (interval,
    { world with
      current := some interval
      files := mapSet world.files current.path { record with core } })

def acknowledgeAmendment (workflow : Facts) (options : AcknowledgeOptions) (world : World) :
    Except Failure (Option Acknowledged × World) :=
  match openFor world options.phaseId with
  | none => .ok (none, world)
  | some current =>
      match (current.amendments.getD []).getLast? with
      | none =>
          .error (.singularityFlow (js "There is no amendment to acknowledge on this interval.")
            (some (js "AMENDMENT_ACKNOWLEDGEMENT_UNNEEDED")))
      | some last => do
          let invalid : Failure := .singularityFlow
            (js "Cannot acknowledge through generation "
              ++ (options.throughGeneration.map Number.text).getD (js "undefined")
              ++ js "; the latest amendment reached " ++ (Number.ofInt last.toGeneration).text
              ++ js ".") (some (js "AMENDMENT_ACKNOWLEDGEMENT_INVALID"))
          match acknowledgementTarget options last.toGeneration with
          | none => .error invalid
          | some target => do
              failIf (last.toGeneration < target) invalid
              let already := current.acknowledgedGeneration.getD 0
              if target ≤ already then
                .ok (some ⟨{ current with acknowledgedGeneration := some already }, false⟩, world)
              else do
                let record ← readBaseline workflow world current.path
                let (interval, written) := applyAcknowledgement options target current record world
                .ok (some ⟨interval, true⟩, written)

end WorkIntervals

end SingularityFlow
