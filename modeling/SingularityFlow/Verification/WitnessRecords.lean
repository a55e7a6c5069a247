/-
# Witness records

An inspection or a visual slot of a contract is witnessed by a person, who answers
a checklist about one file.  `recordWitness` checks what is recorded against the
slot, the plan row and what was published, and binds the record to the bytes of
the file and to the plan and candidate in force; `witnessRecordResults` says what
the latest record of each slot still proves.

The plans in force are those the phases are bound to, read by their digests
(`planOf`) and corrected.  Digests of files stand for their bytes; the digest of a
context is a parameter.
-/
import SingularityFlow.Verification.Results
import SingularityFlow.Verification.Untouched

namespace SingularityFlow

open Ecma

namespace Verification

/-! ## The Story -/

/-- A published path of an obligation. -/
structure PublishedPath where
  path : Text
  present : Bool
  sha256 : Option Text
deriving DecidableEq

/-- An obligation of a delivery, as it was fulfilled. -/
structure Fulfilled where
  clauseId : Text
  fulfillment : Option Text
  paths : List PublishedPath
deriving DecidableEq

/-- `deliveryEvidence`. -/
structure DeliveryEvidence where
  sourceTreeSha256 : Option Text
  testInputSha256 : Option Text
  fulfillment : List Fulfilled
deriving DecidableEq

/-- What a phase delivers; a phase that published has a positive generation. -/
structure Delivery where
  generation : Number
  positive : isPositiveInt generation = true
  generationCommit : Option Text
  deliveryEvidence : Option DeliveryEvidence
deriving DecidableEq

/-- A phase of the workflow, as far as witnesses read it. -/
structure WitnessPhase where
  /-- `specIndex.indexSha256`. -/
  specification : Option Text
  delivery : Option Delivery
deriving DecidableEq

inductive WitnessOutcome where
  | met | failed
deriving DecidableEq

/-- A record of `recordWitness`. -/
structure WitnessRecord where
  id : Text
  clauseId : Text
  slot : Text
  method : Method
  file : Text
  sha256 : Text
  contextBinding : Option Text
  target : Option Text
  checklist : List (Text × Text)
  outcome : WitnessOutcome
  reason : Text
  actor : Text
  authorityGroup : Text
  identityAssurance : Option Text
  date : Text
deriving DecidableEq

/-- A Story with its witness records, and the digests of the files of its
checkout that can be read. -/
structure WitnessState where
  workId : Option Text
  phaseOrder : List Text
  story : Story
  phases : List (Text × WitnessPhase)
  witnessRecords : List WitnessRecord
  currentSha256 : List (Text × Option Text)

/-! ## The context of a record -/

/-- The published candidate of a phase. -/
structure Candidate where
  generation : Number
  positive : isPositiveInt generation = true
  commit : Option Text
  source : Option Text
  tests : Option Text
deriving DecidableEq

structure PhaseContext where
  id : Text
  specification : Option Text
  plan : Option Text
  candidate : Option Candidate
deriving DecidableEq

/-- What `witnessContextBinding` takes the digest of. -/
structure WitnessContext where
  workId : Option Text
  phases : List PhaseContext
deriving DecidableEq

def Candidate.toValue (candidate : Candidate) : Value :=
  .obj [(js "generation", .num candidate.generation), (js "commit", nullableText candidate.commit),
    (js "source", nullableText candidate.source), (js "tests", nullableText candidate.tests)]

def candidateValue : Option Candidate → Value
  | none => .null
  | some candidate => candidate.toValue

def PhaseContext.toValue (phase : PhaseContext) : Value :=
  .obj [(js "id", .str phase.id), (js "specification", nullableText phase.specification),
    (js "plan", nullableText phase.plan), (js "candidate", candidateValue phase.candidate)]

def WitnessContext.toValue (context : WitnessContext) : Value :=
  .obj [(js "workId", nullableText context.workId),
    (js "phases", .arr (context.phases.map PhaseContext.toValue))]

/-- The candidate of a phase that delivered. -/
def candidateOf (phase : WitnessPhase) : Option Candidate := do
  let delivery ← phase.delivery
  let evidence ← delivery.deliveryEvidence
  return { generation := delivery.generation, positive := delivery.positive
           commit := delivery.generationCommit, source := evidence.sourceTreeSha256
           tests := evidence.testInputSha256 }

def WitnessState.context (s : WitnessState) : WitnessContext where
  workId := s.workId
  phases := s.phaseOrder.map fun id =>
    { id
      specification := (mapGet s.phases id).bind WitnessPhase.specification
      plan := s.story.workflow.pointer id
      candidate := (mapGet s.phases id).bind candidateOf }

section Records

variable (sha : PlannedClaim → Text) (toUpperCase : Text → Text) (isUuid isDatetime : Text → Bool)
  (itemRoot : Text) (planOf : Text → Option Plan) (recordSha256 : Value → Text)

/-- `witnessContextBinding`. -/
def witnessContextBinding (s : WitnessState) : Text := js "sha256:" ++ recordSha256 s.context.toValue

/-! ## The plans in force -/

/-- `readBoundSpecificationClaimMap`, of the plan that a phase is bound to. -/
def boundPlan (s : WitnessState) (phase : Text) : Option Plan := do
  let pointer ← s.story.workflow.pointer phase
  let record ← planOf pointer
  (applyPlanCorrections sha toUpperCase isUuid isDatetime s.story.workflow
    (some (evidenceDirectory itemRoot)) record).toOption

def plansInForce (s : WitnessState) : List Plan :=
  s.phaseOrder.filterMap (boundPlan sha toUpperCase isUuid isDatetime itemRoot planOf s)

/-- `mergedVerificationContracts`. -/
def mergedVerificationContracts (plans : List Plan) : List Contract := plans.flatMap Plan.contracts

/-- The obligations of a criterion, with the owner of each: what `mergePlannedClaimRecords`
puts together. -/
def obligationsOf (plans : List Plan) (clauseId : Text) : List (Text × PlannedClaim) :=
  plans.filterMap fun plan => (plan.claim clauseId).map fun claim => (plan.phase, claim)

/-- The rows of a criterion in force. -/
def rowsInForce (s : WitnessState) (clauseId : Text) : List (Text × PlannedClaim) :=
  obligationsOf (plansInForce sha toUpperCase isUuid isDatetime itemRoot planOf s) clauseId

/-- The contract of a criterion in force. -/
def contractInForce (s : WitnessState) (clauseId : Text) : Option Contract :=
  contractFor (mergedVerificationContracts
    (plansInForce sha toUpperCase isUuid isDatetime itemRoot planOf s)) clauseId

/-! ## Recording a witness -/

/-- The arguments of `decision witness`. -/
structure WitnessRequest where
  clauseId : Text
  slot : Text
  file : Text
  answers : List (Text × Text)
  reason : Text
  actor : Text
  authorityGroup : Text
  identityAssurance : Option Text
  date : Text

/-- `WITNESS_CHECKLIST`. -/
def witnessChecklist : List Text :=
  [js "states-the-outcome", js "matches-the-criterion", js "current-for-this-change"]

def witnessInvalid (message : Text) : Failure :=
  .singularityFlow message (some (js "WITNESS_RECORD_INVALID"))

def witnessUnpublished (message : Text) : Failure :=
  .singularityFlow message (some (js "WITNESS_EVIDENCE_UNPUBLISHED"))

def witnessReasonRequired (message : Text) : Failure :=
  .singularityFlow message (some (js "WITNESS_RECORD_REASON_REQUIRED"))

/-- `/^sha256:[a-f0-9]{64}$/u`. -/
def isFileDigest (t : Text) : Bool := (js "sha256:").isPrefixOf t && isSha (t.drop 7)

/-- A digest under its prefix, whether it is stored with it or without. -/
def prefixedDigest (sha256 : Option Text) : Text :=
  let digest := sha256.getD []
  js "sha256:" ++ (if (js "sha256:").isPrefixOf digest then digest.drop 7 else digest)

/-- What phases published of a file as the retained evidence of a criterion. -/
def publishedEvidence (s : WitnessState) (clauseId file : Text) : List PublishedPath :=
  (s.phases.filterMap fun (_, phase) =>
      (phase.delivery.filter fun delivery => delivery.generationCommit.any (· ≠ [])).bind
        Delivery.deliveryEvidence).flatMap fun evidence =>
    (evidence.fulfillment.filter fun entry =>
        entry.clauseId = clauseId ∧ entry.fulfillment = some (js "evidence")).flatMap fun entry =>
      entry.paths.filter fun entry => entry.path = file ∧ entry.present

/-- The slot that is witnessed inspects the file. -/
def checkSlot (clauseId file : Text) (slot : Option Slot) : Except Failure Slot :=
  match slot.filter fun slot => slot.method ≠ .test with
  | none => .error (witnessInvalid (clauseId ++ js ("'s contract has no inspection or visual slot by "
      ++ "that name; tests are witnessed by their own runs.")))
  | some slot =>
      if slot.method = .inspection ∧ slot.witness.path? ≠ some file then
        .error (witnessInvalid (clauseId ++ js "'s slot " ++ slot.slot ++ js " inspects "
          ++ slot.witness.path?.getD (js "undefined") ++ js ", not " ++ file ++ js "."))
      else .ok slot

/-- Retained evidence is a file that the row names, as it was published. -/
def checkRetained (s : WitnessState) (clauseId file sha256 : Text)
    (rows : List (Text × PlannedClaim)) : Except Failure Unit :=
  let retained := rows.filter fun row => row.2.fulfillment = some (js "evidence")
  if retained = [] then .ok ()
  else
    let expected := retained.flatMap fun row => row.2.expectedPaths
    let published := publishedEvidence s clauseId file
    if file ∉ expected then
      .error (witnessInvalid (clauseId ++ js "'s retained evidence is "
        ++ joinWith (js ", ") expected ++ js ", not " ++ file ++ js "."))
    else if published = [] ∨ published.any (fun entry => prefixedDigest entry.sha256 ≠ sha256) then
      .error (witnessUnpublished (file ++ js " does not match the published retained evidence for "
        ++ clauseId ++ js (". Preserve the image and publish a reviewed correction before "
        ++ "witnessing it.")))
    else .ok ()

/-- Every item of the checklist is answered once, with yes or no. -/
def checkAnswers (answers : List (Text × Text)) : Except Failure Unit :=
  let unknown := (answers.map Prod.fst).filter (· ∉ witnessChecklist)
  let missing := witnessChecklist.filter fun item =>
    !(mapGet answers item).any fun answer => answer = js "yes" || answer = js "no"
  if unknown ≠ [] ∨ missing ≠ [] then
    .error (witnessInvalid (js "Answer every checklist item once with --confirm or --deny: "
      ++ joinWith (js ", ") witnessChecklist
      ++ (if unknown ≠ [] then js "; unknown: " ++ joinWith (js ", ") unknown else []) ++ js "."))
  else .ok ()

/-- `WIT-<sequence>`, at least three digits long. -/
def witnessRecordId (records : List WitnessRecord) : Text :=
  let digits := natText (records.length + 1)
  js "WIT-" ++ List.replicate (3 - digits.length) 0x30 ++ digits

/-- `recordWitness`, called as `decision witness` calls it: with the slot of the
contract in force, the digest of the file and the rows of the criterion. -/
def recordWitness (s : WitnessState) (request : WitnessRequest) : Except Failure WitnessRecord := do
  let clauseId := request.clauseId
  let contract := contractInForce sha toUpperCase isUuid isDatetime itemRoot planOf s clauseId
  let sha256 := ((mapGet s.currentSha256 request.file).getD none).getD []
  failIf (!isAcId clauseId)
    (witnessInvalid (js "--criterion must name one acceptance criterion, such as ORDER:AC-001."))
  let slot ← checkSlot clauseId request.file
    (contract.bind fun contract => contract.slots.find? fun slot => slot.slot = request.slot)
  checkRetained s clauseId request.file sha256
    (rowsInForce sha toUpperCase isUuid isDatetime itemRoot planOf s clauseId)
  failIf (!isFileDigest sha256)
    (witnessInvalid (request.file ++ js " could not be read to bind its bytes."))
  checkAnswers request.answers
  let text := trim request.reason
  failIf (text.length < 10 ∨ text.length > 1000) (witnessReasonRequired
    (js "Say what you inspected in 10 to 1000 characters with --reason."))
  let checklist := witnessChecklist.map fun item => (item, (mapGet request.answers item).getD [])
  return {
    id := witnessRecordId s.witnessRecords
    clauseId, slot := slot.slot, method := slot.method, file := request.file, sha256
    contextBinding := some (witnessContextBinding recordSha256 s)
    target := match slot.witness with
      | .target target => if slot.method = .visual then some target else none
      | _ => none
    checklist
    outcome := if checklist.all fun item => item.2 = js "yes" then .met else .failed
    reason := text, actor := request.actor, authorityGroup := request.authorityGroup
    identityAssurance := request.identityAssurance, date := request.date }

/-! ## What the records prove -/

/-- The key of the latest records: the criterion and the slot, with a zero between. -/
def WitnessRecord.key (record : WitnessRecord) : Text := record.clauseId ++ [0] ++ record.slot

/-- The latest record of each slot, in the order of the first ones. -/
def latestRecords (records : List WitnessRecord) : List WitnessRecord :=
  (distinct (records.map WitnessRecord.key)).filterMap fun key =>
    records.reverse.find? fun record => record.key = key

/-- What a latest record proves now. -/
def recordStatus (currentSha256 : List (Text × Option Text)) (contextBinding : Text)
    (record : WitnessRecord) : RecordStatus :=
  if record.contextBinding.any fun binding => binding ≠ [] && binding ≠ contextBinding then .missing
  else if mapGet currentSha256 record.file ≠ some (some record.sha256) then .missing
  else if record.outcome ≠ .met then .failed
  else .met

def recordResult (currentSha256 : List (Text × Option Text)) (contextBinding : Text)
    (record : WitnessRecord) : Record where
  clauseId := record.clauseId
  slot := record.slot
  method := record.method
  status := recordStatus currentSha256 contextBinding record
  assurance :=
    if recordStatus currentSha256 contextBinding record = .met then some .sourceBound else none
  exception := false

/-- `witnessRecordResults`. -/
def witnessRecordResults (s : WitnessState) : List Record :=
  (latestRecords s.witnessRecords).map
    (recordResult s.currentSha256 (witnessContextBinding recordSha256 s))

end Records

end Verification

end SingularityFlow
