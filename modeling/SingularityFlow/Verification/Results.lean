/-
# How a criterion stands against its contract

`contractResult` judges each slot of a contract on its own: a test slot by the
witnesses that serve it, an inspection or visual slot by its record.  The primary
slots then combine, and two rules may turn what comes out into an exception: a
reviewer's decision about a witness, and a recovery decision that accepted the
risk of a failed test.

The second rule looks at the witnesses of the slots and not at the slots, so that
a slot without witnesses is not seen by it: `sound_iff` says when the result is
carried by the slots all the same, and `risk_carries_missing_slot` is a contract
where it is not.  A witness serves the first slot that names its file, so that a
supporting slot can also take it from a primary one.

Of the findings only the codes are modelled.
-/
import SingularityFlow.Verification.Witnesses

namespace SingularityFlow

open Ecma

namespace Verification

/-! ## What is judged -/

structure Entry where
  witness : TestWitness
  attempt : Option Attempt
  ready : Bool

inductive Adequacy where
  | adequate | notApplicable | exception
deriving DecidableEq

/-- A reviewer's decision about a witness; a date that is none is `none`. -/
structure Decision where
  decision : Adequacy
  expiresAt : Option Int

inductive RecordStatus where
  | met | missing | failed
deriving DecidableEq

/-- What `witnessRecordResults` says of a recorded inspection. -/
structure Record where
  clauseId : Text
  slot : Text
  method : Method
  status : RecordStatus
  assurance : Option Assurance
  exception : Bool

structure Options where
  submitted : Bool
  rowSubmitted : Bool
  requiredAssurance : Assurance
  decisionFor : Entry → Option Decision
  unattached : List Text
  records : List Record
  acceptedRisk : Bool
  now : Option Int

structure SlotResult where
  slot : Text
  method : Method
  role : Role
  status : Status
  assurance : Assurance
  identity : Identity
  execution : Execution
  requiredAssurance : Assurance
  results : List WitnessResult
  record : Option Record
  excepted : Bool
  findings : List Text

inductive Exception where
  | none | witnessException | acceptedRisk
deriving DecidableEq

structure CriterionResult where
  status : Status
  exception : Exception
  assurance : Assurance
  identity : Identity
  execution : Execution
  requiredAssurance : Assurance
  executionWord : Outcome
  skipped : Nat
  witnessResults : List WitnessResult
  slots : List SlotResult
  findings : List Text

/-! ## A test slot -/

/-- `Date.parse(decision.expiresAt ?? '') > Date.parse(at)`. -/
def Decision.live (decision : Decision) (now : Option Int) : Bool :=
  match decision.expiresAt, now with
  | some expiresAt, some now => now < expiresAt
  | _, _ => false

/-- An adequacy exception that lapsed. -/
def Decision.lapsed (decision : Decision) (now : Option Int) : Bool :=
  decision.decision = .exception && !decision.live now

/-- A reviewer did not take the witness out. -/
def Options.counts (options : Options) (entry : Entry) : Bool :=
  (options.decisionFor entry).all fun d => d.decision ≠ .notApplicable && !d.lapsed options.now

/-- The witnesses that serve a slot. -/
def serving (contract : Contract) (slot : Slot) (entries : List Entry) : List Entry :=
  entries.filter fun entry =>
    (testSlotFor contract entry.witness.testSource).map Slot.slot = some slot.slot

/-- `WITNESS_FINDINGS`, and the shortfall before them. -/
def witnessFindingOf (result : WitnessResult) : Text :=
  if result.shortfall then js "EVIDENCE_ASSURANCE_SHORTFALL"
  else
    match result.outcome with
    | .failed => js "EVIDENCE_TEST_FAILED"
    | .unavailable => js "EVIDENCE_TEST_UNAVAILABLE"
    | .passedWithSkips => js "EVIDENCE_TESTS_SKIPPED"
    | .flaky => js "EVIDENCE_TEST_FLAKY"
    | .unverifiedSkipped => js "EVIDENCE_TEST_SKIPPED"
    | .missing | .notRun => js "EVIDENCE_TEST_NOT_RUN"
    | .ambiguous => js "EVIDENCE_TEST_AMBIGUOUS"
    | .inconclusive | .passed => js "EVIDENCE_TEST_IDENTITY_INCONCLUSIVE"

section Slots

variable (instances : TestWitness → Text → Bool)

/-- `testSlotResult`. -/
def testSlotResult (slot : Slot) (contract : Contract) (entries : List Entry) (options : Options) :
    SlotResult :=
  let served := serving contract slot entries
  let lapsed := served.filter fun entry =>
    (options.decisionFor entry).any fun d => d.lapsed options.now
  let findings := lapsed.map fun _ => js "EVIDENCE_WITNESS_EXCEPTION_EXPIRED"
  let counted := served.filter options.counts
  let excepted := counted.any fun entry =>
    (options.decisionFor entry).any fun d => d.decision = .exception
  let judged := counted.filter fun entry => entry.ready = options.submitted
  let results := judged.map fun entry =>
    witnessResult instances entry.witness entry.attempt options.submitted
  let required := strongest Assurance.rank options.requiredAssurance
    (slot.requiredAssurance.getD .none :: results.map WitnessResult.requiredAssurance)
  if results = [] then
    let missing : List Text :=
      if options.rowSubmitted && slot.isPrimary then
        [if options.unattached ≠ [] then js "EVIDENCE_TAG_NOT_ON_TEST"
          else if served ≠ [] then js "EVIDENCE_WITNESS_NOT_APPLICABLE"
          else js "EVIDENCE_WITNESS_MISSING"]
      else []
    { slot := slot.slot, method := slot.method, role := slot.role
      status := if options.rowSubmitted then .missing else .pending
      assurance := .none, identity := .none, execution := .none, requiredAssurance := required
      results, record := none, excepted := false, findings := findings ++ missing }
  else if !options.submitted then
    -- what the preflight run showed is still pending its submission
    { slot := slot.slot, method := slot.method, role := slot.role, status := .pending
      assurance := .declared, identity := .declared, execution := .none, requiredAssurance := required
      results, record := none, excepted := false, findings }
  else
    let aggregate := aggregateWitnesses results
    let short := aggregate.status = .met && aggregate.assurance.rank < required.rank
    { slot := slot.slot, method := slot.method, role := slot.role
      status := if short then .inconclusive else aggregate.status
      assurance := aggregate.assurance, identity := aggregate.identity
      execution := aggregate.execution, requiredAssurance := required, results, record := none, excepted
      findings := findings ++ (if short then [js "EVIDENCE_ASSURANCE_SHORTFALL"] else [])
        ++ (results.filter fun r => r.status ≠ .met).map witnessFindingOf }

/-- `recordSlotResult`. -/
def recordSlotResult (id : Text) (slot : Slot) (options : Options) : SlotResult :=
  let record := options.records.find? fun r =>
    r.clauseId = id && r.slot = slot.slot && r.method = slot.method
  let status : Status :=
    match record.map Record.status with
    | some .met => .met
    | some .missing => .missing
    | some .failed => .failed
    | none => if options.rowSubmitted then .missing else .pending
  let assurance := (record.bind Record.assurance).getD .sourceBound
  let met := status = .met
  { slot := slot.slot, method := slot.method, role := slot.role, status
    assurance := if met then assurance else .none
    identity := if !met then .none else if assurance = .declared then .declared else .sourceBound
    execution := .none, requiredAssurance := slot.requiredAssurance.getD .sourceBound
    results := [], record
    excepted := met && record.any Record.exception
    findings :=
      if met || status = .pending || !slot.isPrimary then []
      else [if slot.method = .inspection then js "EVIDENCE_INSPECTION_MISSING"
        else js "EVIDENCE_VISUAL_MISSING"] }

def slotResult (id : Text) (contract : Contract) (entries : List Entry) (options : Options)
    (slot : Slot) : SlotResult :=
  if slot.method = .test then testSlotResult instances slot contract entries options
  else recordSlotResult id slot options

/-! ## The criterion -/

/-- `executionWord`. -/
def executionWord (results : List WitnessResult) : Outcome :=
  let outcomes := results.map WitnessResult.outcome
  ([.failed, .unavailable, .flaky, .ambiguous, .inconclusive, .unverifiedSkipped, .missing,
      .passedWithSkips, .notRun].find? fun o => o ∈ outcomes).getD
    (if outcomes ≠ [] then .passed else .notRun)

/-- The weakest of a list, which is not empty where it counts. -/
def weakestOf {α : Type} (rank : α → Nat) (none : α) : List α → α
  | [] => none
  | first :: rest => weakest rank first rest

def strongestOf {α : Type} (rank : α → Nat) (none : α) : List α → α
  | [] => none
  | first :: rest => strongest rank first rest

/-- How the states of the primary slots combine. -/
def combined (combination : Combination) (statuses : List Status) : Status :=
  match combination with
  | .all => strongestBlocker statuses
  | .any =>
      if .met ∈ statuses then .met
      else ([.pending, .missing, .inconclusive, .failed].find? fun s => s ∈ statuses).getD .missing

/-- The outcome is one that a recovery decision can accept. -/
def WitnessResult.failing (result : WitnessResult) : Bool :=
  result.outcome = .failed || result.outcome = .unavailable

/-- `contractResult`. -/
def contractResult (id : Text) (contract : Contract) (entries : List Entry) (options : Options) :
    CriterionResult :=
  let slots := contract.slots.map (slotResult instances id contract entries options)
  let primary := slots.filter fun r => r.role = .primary
  let met := primary.filter fun r => r.status = .met
  let counted := if contract.combination = .any && met ≠ [] then met else primary
  let observed := combined contract.combination (primary.map SlotResult.status)
  let witnessResults := slots.flatMap SlotResult.results
  let countedResults := counted.flatMap SlotResult.results
  let witnessException := observed = .met && counted.any SlotResult.excepted
  -- a recovery decision that accepted the observed failure carries the criterion
  let acceptedRisk := options.acceptedRisk && (observed = .failed || observed = .inconclusive)
    && countedResults ≠ [] && countedResults.all fun r => r.failing || r.status = .met
  let status := if witnessException || acceptedRisk then .excepted else observed
  { status
    exception :=
      if acceptedRisk then .acceptedRisk else if witnessException then .witnessException else .none
    assurance :=
      if observed = .met then
        match contract.combination with
        | .any => strongestOf Assurance.rank .none (counted.map SlotResult.assurance)
        | .all => weakestOf Assurance.rank .none (counted.map SlotResult.assurance)
      else if acceptedRisk then .declared
      else weakestOf Assurance.rank .none (countedResults.map WitnessResult.assurance)
    identity :=
      if countedResults ≠ [] then
        if countedResults.all fun r => r.identity = .sourceBound then .sourceBound else .declared
      else if counted.any fun r => r.status = .met then
        weakestOf Identity.rank .none (counted.map SlotResult.identity)
      else .none
    execution := weakestOf Execution.rank .none (countedResults.map WitnessResult.execution)
    requiredAssurance := strongest Assurance.rank options.requiredAssurance
      (counted.map SlotResult.requiredAssurance)
    executionWord := executionWord witnessResults
    skipped := (witnessResults.map WitnessResult.skipped).sum
    witnessResults, slots
    findings := if status = .met || status = .excepted then [] else primary.flatMap SlotResult.findings }

end Slots

end Verification

end SingularityFlow
