/-
# Recording and replaying plan corrections

Two kinds of correction are kept in one list of the workflow.  A correction of rows
is recorded with the digests of the rows it replaces; a correction of a criterion's
evidence puts one retained file in the place of a row's paths and gives the
criterion a contract of its own.  `applyPlanCorrections` is what every reader of a
plan does: it replays, in order, the corrections of the plan's own generation.

`recordPlanRowCorrection` throws where it refuses, and is modelled with the workflow
it leaves behind then.  Of `acceptEvidenceContractCorrection` the part is modelled
that looks at the plan and the decision; what it asks of the phase, the worktree and
the retained file is an argument (`surroundings`).
-/
import SingularityFlow.Verification.AmendmentRecords

namespace SingularityFlow

open Ecma

namespace Verification

/-! ## Workflows -/

/-- A phase of the workflow, as far as corrections read it. -/
structure PhaseState where
  authorities : List Text
  requiredAuthorities : List Text
  /-- `claimMaps.planned.sha256`. -/
  planned : Option Text
deriving DecidableEq

structure Workflow where
  phases : List (Text × PhaseState)
  planAmendments : Option (List Value)
deriving DecidableEq

def Workflow.amendments (workflow : Workflow) : List Value := workflow.planAmendments.getD []

/-- `evidenceOwnerAuthorities`. -/
def evidenceOwnerAuthorities (workflow : Workflow) (ownerPhase : Text) : List Text :=
  match mapGet workflow.phases ownerPhase with
  | none => []
  | some phase => sortedSet (phase.authorities ++ phase.requiredAuthorities)

/-- The map that a phase is bound to. -/
def Workflow.pointer (workflow : Workflow) (phase : Text) : Option Text :=
  (mapGet workflow.phases phase).bind PhaseState.planned

/-- `value?.kind`. -/
def kindOf : Value → Option Text
  | .obj members => text? (lookup (js "kind") members)
  | _ => none

def rowRefused (message : Text) : Failure :=
  .singularityFlow message (some (js "PLAN_ROW_CORRECTION_INVALID"))

def rowInvalid (message : Text) : Failure :=
  .singularityFlow message (some (js "PLAN_ROW_CORRECTION_INTEGRITY"))

def evidenceInvalid (message : Text) : Failure :=
  .singularityFlow message (some (js "PLAN_EVIDENCE_AMENDMENT_INTEGRITY"))

/-! ## The evidence of a criterion -/

section Replay

variable (sha : PlannedClaim → Text) (toUpperCase : Text → Text) (isUuid isDatetime : Text → Bool)

def supportingTest (index : Nat) (test : Text) : Slot :=
  ⟨js "supporting-test-" ++ natText (index + 1), .test, .supporting, .path test, none⟩

/-- The contract that an evidence correction gives its criterion. -/
def evidenceContract (clauseId : Text) (claim : PlannedClaim) (evidencePath : Text)
    (method : EvidenceMethod) : Contract where
  clauseId
  combination := .all
  reason := none
  slots := ⟨js "retained-evidence", method.method, .primary,
      (match method with | .visual => .target evidencePath | .inspection => .path evidencePath),
      some .sourceBound⟩
    :: claim.tests.mapIdx supportingTest

/-- `evidenceCorrectionProjection`. -/
def evidenceCorrectionProjection (clauseId : Text) (claim : PlannedClaim) (evidencePath : Text)
    (method : EvidenceMethod) : Except Failure (PlannedClaim × Contract) := do
  let contracts ← normalizeVerificationContracts toUpperCase
    [evidenceContract clauseId claim evidencePath method]
  match contracts with
  | contract :: _ =>
      return ({ claim with fulfillment := some (js "evidence"), expectedPaths := [evidencePath] }, contract)
  | [] => .error (.typeError [])

/-- The corrected row and contract, put into the plan. -/
def projectEvidence (plan : Plan) (clauseId : Text) (claim : PlannedClaim) (path : Text)
    (method : EvidenceMethod) : Except Failure Plan := do
  let (corrected, contract) ← evidenceCorrectionProjection toUpperCase clauseId claim path method
  let contracts ← normalizeVerificationContracts toUpperCase
    (plan.contracts.filter (fun c => c.clauseId ≠ clauseId) ++ [contract])
  return { plan.setClaim clauseId corrected with verificationContracts := some contracts }

/-! ## Replaying -/

/-- `applyPlanEvidenceAmendments`, for one amendment. -/
def applyEvidence (workflow : Workflow) (evidenceRoot : Option Text) (plan : Plan) (value : Value) :
    Except Failure Plan :=
  match EvidenceAmendment.ofValue isDatetime value with
  | none => .error (evidenceInvalid (js "Evidence amendment schema or human decision binding is invalid."))
  | some a =>
      if a.authorityGroup ∉ evidenceOwnerAuthorities workflow a.ownerPhase then
        .error (evidenceInvalid (js "Evidence amendment lacks its exact owner plan authority."))
      else if a.ownerPhase ≠ plan.phase ∨ !a.ownerGeneration.same plan.generation then .ok plan
      else if workflow.pointer plan.phase ≠ some a.ownerMapSha256 then
        .error (evidenceInvalid (js "Evidence amendment no longer binds its approved owner map."))
      else
        match (plan.claim a.clauseId).filter fun claim => sha claim = a.previousClaimSha256 with
        | none => .error (evidenceInvalid
            (js "Evidence amendment does not replace the exact reviewed clause row."))
        | some claim =>
            if evidenceRoot.any fun root => !(root ++ js "/").isPrefixOf a.path then
              .error (evidenceInvalid (js "Evidence amendment points outside this Story."))
            else projectEvidence toUpperCase plan a.clauseId claim a.path a.method

/-- `applyRowCorrection`. -/
def applyRowCorrection (workflow : Workflow) (plan : Plan) (value : Value) : Except Failure Plan :=
  match RowCorrection.ofValue isUuid isDatetime value with
  | none => .error (rowInvalid (js "A plan correction record is not well formed."))
  | some c =>
      if c.authorityGroup ∉ evidenceOwnerAuthorities workflow c.ownerPhase then
        .error (rowInvalid (js "Plan correction " ++ c.id ++ js " lacks its owner plan's authority."))
      else if c.ownerPhase ≠ plan.phase ∨ !c.ownerGeneration.same plan.generation then .ok plan
      else if workflow.pointer plan.phase ≠ some c.ownerMapSha256 then
        .error (rowInvalid (js "Plan correction " ++ c.id ++ js " no longer binds its approved plan."))
      else
        applyOperations sha toUpperCase
          (fun message => rowInvalid (js "Plan correction " ++ c.id ++ js ": " ++ message)) plan c.operations

/-- One amendment of the list. -/
def applyAmendment (workflow : Workflow) (evidenceRoot : Option Text) (plan : Plan) (value : Value) :
    Except Failure Plan :=
  if kindOf value = some evidenceKind then
    applyEvidence sha toUpperCase isDatetime workflow evidenceRoot plan value
  else if kindOf value = some rowKind then
    applyRowCorrection sha toUpperCase isUuid isDatetime workflow plan value
  else .ok plan

def applyAmendments (workflow : Workflow) (evidenceRoot : Option Text) :
    Plan → List Value → Except Failure Plan
  | plan, [] => .ok plan
  | plan, value :: rest => do
      let next ← applyAmendment sha toUpperCase isUuid isDatetime workflow evidenceRoot plan value
      applyAmendments workflow evidenceRoot next rest

/-- `applyPlanCorrections`. -/
def applyPlanCorrections (workflow : Workflow) (evidenceRoot : Option Text) (record : Plan) :
    Except Failure Plan :=
  if record.amendment then .ok record
  else applyAmendments sha toUpperCase isUuid isDatetime workflow evidenceRoot record workflow.amendments

end Replay

/-! ## Recording a correction of rows -/

/-- A row as a planner writes it, before `normalizeRow`. -/
structure RawRow where
  expectedPaths : List Text
  tests : List Text
  fulfillment : Option Text
  steps : List Text
  observableResult : Option Text
  testDisposition : Option Disposition
  testReason : Option Text
  verificationCriterion : Option Text
  deviation : Option Text

/-- A row of a plan, given to the normalizer again. -/
def PlannedClaim.raw (claim : PlannedClaim) : RawRow where
  expectedPaths := claim.expectedPaths
  tests := claim.tests
  fulfillment := claim.fulfillment
  steps := claim.steps
  observableResult := claim.observableResult
  testDisposition := some claim.testDisposition
  testReason := claim.testReason
  verificationCriterion := claim.verificationCriterion
  deviation := claim.deviation

/-- An operation as it is asked for. -/
inductive RequestedOperation where
  | addRow (clauseId : Text) (expectedPaths tests : List Text) (fulfillment : Option Text)
      (steps : List Text) (observableResult : Option Text)
  | addTest (clauseId test : Text)
  | removeLocation (clauseId path : Text)
  | replaceLocation (clauseId old new : Text)
deriving DecidableEq

def RequestedOperation.clauseId : RequestedOperation → Text
  | .addRow id .. | .addTest id _ | .removeLocation id _ | .replaceLocation id _ _ => id

/-- The arguments of `recordPlanRowCorrection`. -/
structure RowRequest where
  ownerMapSha256 : Text
  operations : List RequestedOperation
  activeClauseIds : List Text
  reason : Text
  actor : Text
  authorityGroup : Text
  identityAssurance : Option Text
  authorizationId : Text
  date : Text
  upstreamIssue : Option Text

/-- `exactPath`. -/
def exactPath (value label : Text) : Except Failure Text :=
  let candidate := trim value
  if !isPortablePath candidate || candidate.any (fun u => u ∈ js "*?[]\x7b\x7d")
      || candidate.getLast? = some 0x2F then
    .error (rowRefused (label ++ js " must be one exact repository-relative file path."))
  else .ok candidate

section Record

variable (sha : PlannedClaim → Text) (toUpperCase : Text → Text) (isUuid isDatetime : Text → Bool)
  (normalizeRow : Text → RawRow → Except Failure PlannedClaim)

/-- The row that is there to be corrected. -/
def currentRow (plan : Plan) (id : Text) : Except Failure PlannedClaim :=
  match plan.claim id with
  | none => .error (rowRefused (js "The plan has no row for " ++ id ++ js "; add one with --add-row."))
  | some claim => .ok claim

/-- The operation that is recorded for one that is asked for. -/
def recordedOperation (plan : Plan) (requested : RequestedOperation) : Except Failure Operation :=
  let id := toUpperCase requested.clauseId
  match requested with
  | .addRow _ expectedPaths tests fulfillment steps observableResult => do
      let paths ← sequence (expectedPaths.map fun p => exactPath p (js "An expected path of " ++ id))
      let tests ← sequence (tests.map fun p => exactPath p (js "A planned test of " ++ id))
      failIf (paths = [] ∧ tests = [])
        (rowRefused (js "A new row for " ++ id ++ js " needs expected paths or planned tests."))
      -- an empty text is no field of the row
      let claim ← normalizeRow id {
        expectedPaths := paths, tests, fulfillment := fulfillment.filter (· ≠ []), steps
        observableResult := observableResult.filter (· ≠ []), testDisposition := none, testReason := none
        verificationCriterion := none, deviation := none }
      return .addRow id claim
  | .addTest _ test => do
      let test ← exactPath test (js "The planned test for " ++ id)
      let claim ← currentRow plan id
      return .addTest id test (sha claim)
  | .removeLocation _ path => do
      let path ← exactPath path (js "The path to remove from " ++ id)
      let claim ← currentRow plan id
      return .removeLocation id path (sha claim)
  | .replaceLocation _ old new => do
      let old ← exactPath old (js "The path to replace in " ++ id)
      let new ← exactPath new (js "The replacement path for " ++ id)
      let claim ← currentRow plan id
      return .replaceLocation id old new (sha claim)

/-- The operations as they are recorded, each on the plan that the ones before leave. -/
def recordOperations (active : List Text) : Plan → List RequestedOperation →
    Except Failure (List Operation × Plan)
  | plan, [] => .ok ([], plan)
  | plan, requested :: rest => do
      let id := toUpperCase requested.clauseId
      failIf (id ∉ active) (rowRefused ((if id = [] then js "That clause" else id)
        ++ js " is not an approved clause of this Story."))
      let operation ← recordedOperation sha toUpperCase normalizeRow plan requested
      let next ← applyOperation sha toUpperCase rowRefused plan operation
      let (operations, last) ← recordOperations active next rest
      return (operation :: operations, last)

/-- Every row that was touched is one that the planner could have written. -/
def checkRows (plan : Plan) (ids : List Text) : Except Failure Unit :=
  (distinct ids).forM fun id =>
    match plan.claim id with
    | none => .error (.typeError [])
    | some claim => (normalizeRow id claim.raw).map fun _ => ()

/-- What `recordPlanRowCorrection` does before it touches the workflow: the operations
it is going to record, and the plan they lead to. -/
def prepareRowCorrection (validate : Plan → Except Failure Unit) (owner : Plan) (request : RowRequest) :
    Except Failure (List Operation × Plan) := do
  failIf (!owner.planned) (rowRefused (js "A plan correction needs the approved plan it corrects."))
  failIf (request.operations = [] ∨ maxOperations < request.operations.length)
    (rowRefused (js "Name 1 to 20 corrections with --add-row, --add-test, --remove-location "
      ++ js "or --replace-location."))
  let active := request.activeClauseIds.map toUpperCase
  let (operations, plan) ← recordOperations sha toUpperCase normalizeRow active owner request.operations
  checkRows normalizeRow plan (operations.map Operation.clauseId)
  validate plan
  failIf (¬ isReason (trim request.reason))
    (rowRefused (js "Say why the plan is corrected in 20 to 1000 characters with --reason."))
  return (operations, plan)

/-- `PRC-<sequence>`, at least three digits long. -/
def rowCorrectionId (amendments : List Value) : Text :=
  let digits := natText (amendments.countP (fun v => kindOf v = some rowKind) + 1)
  js "PRC-" ++ List.replicate (3 - digits.length) 0x30 ++ digits

/-- The correction that is going to be recorded. -/
def rowCorrectionOf (workflow : Workflow) (owner : Plan) (request : RowRequest)
    (operations : List Operation) : RowCorrection where
  id := rowCorrectionId workflow.amendments
  ownerPhase := owner.phase
  ownerGeneration := owner.generation
  ownerMapSha256 := request.ownerMapSha256
  operations
  reason := trim request.reason
  actor := request.actor
  authorityGroup := request.authorityGroup
  identityAssurance := request.identityAssurance
  authorizationId := request.authorizationId
  date := request.date
  upstreamIssue := request.upstreamIssue

def Workflow.push (workflow : Workflow) (amendment : Value) : Workflow :=
  { workflow with planAmendments := some (workflow.amendments ++ [amendment]) }

/-- `recordPlanRowCorrection`: the workflow it leaves, and the plan it validated. -/
def recordPlanRowCorrection (validate : Plan → Except Failure Unit) (workflow : Workflow) (owner : Plan)
    (request : RowRequest) : Workflow × Except Failure Plan :=
  match prepareRowCorrection sha toUpperCase normalizeRow validate owner request with
  | .error e => (workflow, .error e)
  | .ok (operations, plan) =>
      let correction := rowCorrectionOf workflow owner request operations
      if correction.wellFormed isUuid isDatetime then (workflow.push correction.toValue, .ok plan)
      else
        -- `workflow.planAmendments ??= []` comes before the last check
        ({ workflow with planAmendments := some workflow.amendments },
          .error (rowRefused (js "The plan correction is not well formed.")))

/-! ## Recording a correction of evidence -/

/-- The arguments of `acceptEvidenceContractCorrection`, and what it makes of the
decision. -/
structure EvidenceRequest where
  id : Text
  phaseId : Text
  clauseId : Text
  evidencePath : Text
  method : EvidenceMethod
  reason : Text
  reviewedSha256 : Text
  reviewedSize : Nat
  actor : Text
  authorityGroup : Text
  authorizationId : Text
  reviewAssurance : EvidenceReview
  date : Text
  recordPath : Text
  surroundings : Except Failure Unit

def evidenceRefused (message : Text) : Failure :=
  .singularityFlow message (some (js "PLAN_EVIDENCE_CORRECTION_INVALID"))

/-- What is checked of an evidence correction before it is recorded: the row it
replaces, and the row and the contract it proposes. -/
def prepareEvidence (validate : Plan → Except Failure Unit) (workflow : Workflow) (itemRoot : Text)
    (owner : Plan) (request : EvidenceRequest) :
    Except Failure (PlannedClaim × PlannedClaim × Contract) := do
  request.surroundings
  failIf (!isReason (trim request.reason) || request.reason.any fun u => u.toNat ≤ 0x1F || u = 0x7F)
    (evidenceRefused (js "Explain the evidence classification correction in 20–1000 characters."))
  let id := toUpperCase request.clauseId
  failIf (!isAcId id)
    (evidenceRefused (js "Choose one exact approved acceptance criterion and visual or inspection."))
  failIf (!(itemRoot ++ js "/evidence/").isPrefixOf request.evidencePath) (evidenceRefused
    (js "The exact retained file must belong to this Story's evidence directory."))
  failIf (!isPortableEvidencePath request.evidencePath) (evidenceRefused
    (js "Use one exact portable evidence-file path; no traversal, links, or wildcards."))
  match (owner.claim id).filter fun claim => claim.steps = [] || request.phaseId ∈ claim.steps with
  | none => .error (evidenceRefused
      (js "The approved plan does not allocate this exact criterion to the current phase."))
  | some claim =>
      failIf (claim.fulfillment = some (js "evidence") ∧ request.evidencePath ∈ claim.expectedPaths)
        (evidenceRefused (js "This file already has an evidence contract."))
      failIf (evidenceOwnerAuthorities workflow owner.phase = [])
        (evidenceRefused (js "There is no pinned plan approval authority."))
      let (corrected, contract) ←
        evidenceCorrectionProjection toUpperCase id claim request.evidencePath request.method
      validate { owner with claims := [(id, corrected)], verificationContracts := some [contract] }
      return (claim, corrected, contract)

/-- The plan with the proposed row and contract in their places. -/
def proposedPlan (plan : Plan) (clauseId : Text) (corrected : PlannedClaim) (contract : Contract) : Plan :=
  { plan.setClaim clauseId corrected with
    verificationContracts :=
      some (plan.contracts.filter (fun c => c.clauseId ≠ clauseId) ++ [contract]) }

/-- The amendment that is going to be recorded. -/
def evidenceAmendmentOf (workflow : Workflow) (owner : Plan) (request : EvidenceRequest)
    (claim : PlannedClaim) : EvidenceAmendment where
  id := request.id
  ownerPhase := owner.phase
  ownerGeneration := owner.generation
  ownerMapSha256 := (workflow.pointer owner.phase).getD []
  clauseId := toUpperCase request.clauseId
  previousClaimSha256 := sha claim
  path := request.evidencePath
  method := request.method
  reason := trim request.reason
  reviewedSha256 := request.reviewedSha256
  reviewedSize := Number.ofNat request.reviewedSize
  actor := request.actor
  authorityGroup := request.authorityGroup
  authorizationId := request.authorizationId
  reviewAssurance := request.reviewAssurance
  date := request.date
  recordPath := request.recordPath

/-- `acceptEvidenceContractCorrection`, on the plan it read: the workflow it leaves, and
the plan it proposes. -/
def recordEvidenceCorrection (validate : Plan → Except Failure Unit) (workflow : Workflow)
    (itemRoot : Text) (owner : Plan) (request : EvidenceRequest) : Workflow × Except Failure Plan :=
  match prepareEvidence toUpperCase validate workflow itemRoot owner request with
  | .error e => (workflow, .error e)
  | .ok (claim, corrected, contract) =>
      let amendment := evidenceAmendmentOf sha toUpperCase workflow owner request claim
      if amendment.wellFormed isDatetime then
        (workflow.push amendment.toValue,
          .ok (proposedPlan owner (toUpperCase request.clauseId) corrected contract))
      else (workflow, .error (evidenceRefused (js "The evidence amendment is not well formed.")))

end Record

end Verification

end SingularityFlow
