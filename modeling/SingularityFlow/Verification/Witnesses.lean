/-
# The witnesses of a criterion and the runs they were seen in

`witnessResult` says how one witness stands against the attempt of its command.
A witness that is one exact test passes through its own occurrence in the report
of the run; one that is a file passes when its command does, and reaches less.

Which names the report gives to the instances of a parameterized test is a
pattern of the test's own, and a parameter here (`instances`).
-/
import SingularityFlow.Verification.Contracts

namespace SingularityFlow

open Ecma

namespace Verification

/-! ## The facets of assurance -/

/-- How a test is tied to its criterion. -/
inductive Identity where
  | none | declared | sourceBound
deriving DecidableEq

def Identity.rank : Identity → Nat
  | .none => 0
  | .declared => 1
  | .sourceBound => 2

/-- How its run was observed: `EXECUTION_ASSURANCE`. -/
inductive Execution where
  | none | moduleObserved | exactLocalObserved | exactAuthenticated
deriving DecidableEq

def Execution.rank : Execution → Nat
  | .none => 0
  | .moduleObserved => 1
  | .exactLocalObserved => 2
  | .exactAuthenticated => 3

/-- `combinedAssurance`. -/
def combinedAssurance (identity : Identity) (execution : Execution) (passed : Bool) : Assurance :=
  match passed, execution with
  | false, _ | _, .none =>
      match identity with
      | .none => .none
      | .declared => .declared
      | .sourceBound => .sourceBound
  | true, .moduleObserved => .moduleObserved
  | true, .exactLocalObserved =>
      if identity = .sourceBound then .exactLocalObserved else .moduleObserved
  | true, .exactAuthenticated =>
      if identity = .sourceBound then .exactAuthenticated else .moduleObserved

/-! ## Adapters -/

/-- `TEST_ADAPTER_PROFILES`. -/
inductive Profile where
  | nodeTest | jest | vitest | junitSurefire | junitGradle | moduleCounts
  | unknown (id : Text)
deriving DecidableEq

def Profile.isJava : Profile → Bool
  | .junitSurefire | .junitGradle => true
  | _ => false

/-- `profileCeiling`. -/
def profileCeiling : Profile → Assurance
  | .moduleCounts | .unknown _ => .moduleObserved
  | _ => .exactLocalObserved

/-! ## Reports -/

inductive Verdict where
  | passed | failed | skipped
deriving DecidableEq

/-- One test in the report of a run. -/
structure Occurrence where
  className : Option Text
  suitePath : List Text
  name : Text
  file : Option Text
  line : Option Nat
  outcome : Verdict
  flaky : Bool
deriving DecidableEq

inductive AttemptStatus where
  | passed | failed | blocked | unavailable
deriving DecidableEq

/-- A run of a test command. -/
structure Attempt where
  attemptId : Text
  terminal : Bool
  timedOut : Bool
  status : AttemptStatus
  exitCode : Option Int
  failed : Nat
  skipped : Nat
  nodeTap : Bool
  occurrences : List Occurrence
deriving DecidableEq

structure Run where
  completed : Bool
  succeeded : Bool

/-- `attemptRun`. -/
def attemptRun (attempt : Attempt) : Run where
  completed := attempt.terminal && !attempt.timedOut && attempt.status ≠ .blocked
    && attempt.status ≠ .unavailable
  succeeded := attempt.status = .passed && attempt.exitCode.getD 0 = 0 && attempt.failed = 0

/-! ## Witnesses -/

/-- The declaration of an exact test. -/
inductive TestIdentity where
  | java (className methodName : Text)
  | script (suitePath : List Text) (name : Text)
deriving DecidableEq

structure TestWitness where
  clauseId : Text
  testSource : Text
  line : Option Nat
  profile : Profile
  nodeTap : Bool
  commandId : Option Text
  logicalTestId : Option Text
  identity : Option TestIdentity
  /-- The number of instances of a parameterized test. -/
  parameters : Option Nat
  gaps : List Text
deriving DecidableEq

/-- `WITNESS_OUTCOMES`, and the outcomes of a whole file. -/
inductive Outcome where
  | passed | flaky | failed | unverifiedSkipped | missing | ambiguous | inconclusive
  | passedWithSkips | unavailable | notRun
deriving DecidableEq

/-- The states of a witness and of a slot; only a criterion is ever `excepted`. -/
inductive Status where
  | failed | inconclusive | missing | pending | met | excepted
deriving DecidableEq

/-- `OUTCOME_STATUS`. -/
def outcomeStatus : Outcome → Status
  | .passed => .met
  | .failed => .failed
  | .unverifiedSkipped | .missing => .missing
  | .notRun => .pending
  | _ => .inconclusive

structure WitnessResult where
  witness : TestWitness
  attemptId : Option Text
  outcome : Outcome
  status : Status
  identity : Identity
  execution : Execution
  assurance : Assurance
  requiredAssurance : Assurance
  shortfall : Bool
  reasons : List Text
  skipped : Nat

/-! ## Joining a test to its occurrence -/

structure Joined where
  outcome : Outcome
  reasons : List Text
  occurrences : List Occurrence

/-- `fileMatches`, of an occurrence that names its file. -/
def fileMatches (file sourcePath : Text) : Bool :=
  let file := file.map fun u => if u = 0x5C then 0x2F else u
  file = sourcePath || (0x2F :: sourcePath).isSuffixOf file

section Join

variable (instances : TestWitness → Text → Bool)

/-- `candidateOccurrences`. -/
def candidateOccurrences (witness : TestWitness) (identity : TestIdentity)
    (occurrences : List Occurrence) : List Occurrence :=
  match identity with
  | .java className methodName =>
      -- only a Java adapter reads class names
      let inClass := occurrences.filter fun o => witness.profile.isJava && o.className = some className
      match witness.parameters with
      | some _ => inClass.filter fun o => instances witness o.name
      | none => inClass.filter fun o => o.name ∈ [methodName, methodName ++ js "()"]
  | .script suitePath name =>
      let inSuite := occurrences.filter fun o => o.suitePath = suitePath
      let named : List Occurrence :=
        match witness.parameters with
        | some _ => inSuite.filter fun o => instances witness o.name
        | none => inSuite.filter fun o => o.name = name
      if witness.profile = .nodeTest then
        named.filter fun o => o.file = some witness.testSource && o.line = witness.line
      else if named.any fun o => o.file.isSome then
        named.filter fun o => o.file.all fun file => fileMatches file witness.testSource
      else named

/-- `outcomeOf`. -/
def outcomeOf (occurrences : List Occurrence) : Outcome :=
  if occurrences.any fun o => o.outcome = .failed then .failed
  else if occurrences.any fun o => o.outcome = .skipped then .unverifiedSkipped
  else if occurrences.any fun o => o.flaky then .flaky
  else .passed

/-- The outcome of the occurrences in their run. -/
def judged (matched : List Occurrence) (run : Run) : Joined :=
  let outcome := outcomeOf matched
  if outcome = .passed || outcome = .flaky then
    if !run.completed then ⟨.inconclusive, [js "RUN_INCOMPLETE"], matched⟩
    else if !run.succeeded then ⟨.failed, [js "RUN_FAILED"], matched⟩
    else ⟨outcome, [], matched⟩
  else ⟨outcome, [], matched⟩

/-- `joinDeclaration`. -/
def joinDeclaration (witness : TestWitness) (identity : TestIdentity) (occurrences : List Occurrence)
    (run : Run) : Joined :=
  if witness.parameters.isSome && witness.profile = .junitGradle then
    ⟨.inconclusive, [js "PARAMETERIZED_RUNNER_NAMING_UNSUPPORTED"], []⟩
  else
    let matched := candidateOccurrences instances witness identity occurrences
    if matched = [] then ⟨.missing, [js "NO_OCCURRENCE"], []⟩
    else
      match witness.parameters with
      | some expected =>
          if matched.length < expected then ⟨.missing, [js "INSTANCES_MISSING"], matched⟩
          else if matched.length > expected then
            ⟨.ambiguous, [js "INSTANCES_EXCEED_DECLARATION"], matched⟩
          else judged matched run
      | none =>
          if matched.length > 1 then ⟨.ambiguous, [js "DUPLICATE_OCCURRENCE"], matched⟩
          else judged matched run

/-! ## The result of a witness -/

/-- `finish`: a pass below what the adapter can reach is no pass. -/
def finish (witness : TestWitness) (attemptId : Option Text) (outcome : Outcome) (status : Status)
    (identity : Identity) (execution : Execution) (reasons : List Text) (skipped : Nat) :
    WitnessResult :=
  let requiredAssurance := profileCeiling witness.profile
  let passed := status = .met
  let assurance := combinedAssurance identity execution passed
  let shortfall := passed && assurance.rank < requiredAssurance.rank
  { witness, attemptId, outcome, identity, execution, assurance, requiredAssurance, shortfall,
    reasons, skipped
    status := if shortfall then .inconclusive else status }

/-- `witnessResult`. -/
def witnessResult (witness : TestWitness) (attempt : Option Attempt) (submitted : Bool) :
    WitnessResult :=
  match attempt with
  | none =>
      finish witness none .notRun (if submitted then .missing else .pending)
        (if witness.identity.isSome && witness.gaps = [] then .sourceBound else .declared) .none
        [js "NO_ATTEMPT"] 0
  | some attempt =>
      let run := attemptRun attempt
      let module : Execution := if run.succeeded then .moduleObserved else .none
      match witness.identity with
      | none =>
          if witness.nodeTap || attempt.nodeTap || witness.profile = .nodeTest then
            finish witness (some attempt.attemptId) .inconclusive .inconclusive .declared .none
              [js "NODE_TEST_EXACT_IDENTITY_REQUIRED"] 0
          else
            let outcome : Outcome :=
              if !run.completed then .unavailable
              else if !run.succeeded then .failed
              else if attempt.skipped > 0 then .passedWithSkips
              else .passed
            finish witness (some attempt.attemptId) outcome (outcomeStatus outcome) .declared module []
              attempt.skipped
      | some identity =>
          if witness.gaps ≠ [] then
            finish witness (some attempt.attemptId) .inconclusive .inconclusive .declared module
              witness.gaps 0
          else
            let joined := joinDeclaration instances witness identity attempt.occurrences run
            -- a run that failed or ended without a result proves nothing either way
            let joined :=
              if joined.outcome = .missing && !run.succeeded then
                ⟨if run.completed then .failed else .unavailable, [js "RUN_FAILED_WITHOUT_RESULT"], []⟩
              else joined
            let observed := joined.occurrences ≠ [] && joined.outcome ∈
              [Outcome.passed, .flaky, .failed, .unverifiedSkipped]
            finish witness (some attempt.attemptId) joined.outcome (outcomeStatus joined.outcome)
              .sourceBound (if observed then .exactLocalObserved else module) joined.reasons 0

/-- `finish` keeps its outcome, and its status unless the adapter can reach more. -/
theorem finish_status (witness : TestWitness) (attemptId : Option Text) (outcome : Outcome)
    (status : Status) (identity : Identity) (execution : Execution) (reasons : List Text)
    (skipped : Nat) :
    (finish witness attemptId outcome status identity execution reasons skipped).status = status
      ∨ (status = .met
        ∧ (finish witness attemptId outcome status identity execution reasons skipped).status
          = .inconclusive) := by
  unfold finish
  dsimp only
  split
  · next hshort =>
      simp only [Bool.and_eq_true, decide_eq_true_eq] at hshort
      exact .inr ⟨hshort.1, rfl⟩
  · exact .inl rfl

/-- The status of a witness is the one of its outcome, unless it passed below what
the adapter can reach; a witness without an attempt has not run. -/
theorem witnessResult_status (witness : TestWitness) (attempt : Option Attempt) (submitted : Bool) :
    let result := witnessResult instances witness attempt submitted
    (result.outcome = .notRun ∧ (result.status = .missing ∨ result.status = .pending))
      ∨ result.status = outcomeStatus result.outcome
      ∨ (outcomeStatus result.outcome = .met ∧ result.status = .inconclusive) := by
  intro result
  have hfinish : ∀ (attemptId : Option Text) (outcome : Outcome) (identity : Identity)
      (execution : Execution) (reasons : List Text) (skipped : Nat),
      result = finish witness attemptId outcome (outcomeStatus outcome) identity execution reasons
        skipped →
      result.status = outcomeStatus result.outcome
        ∨ (outcomeStatus result.outcome = .met ∧ result.status = .inconclusive) := by
    intro attemptId outcome identity execution reasons skipped hresult
    rw [hresult]
    exact finish_status witness attemptId outcome (outcomeStatus outcome) identity execution reasons skipped
  cases attempt with
  | none =>
      cases submitted with
      | true => exact .inl ⟨rfl, .inl rfl⟩
      | false => exact .inl ⟨rfl, .inr rfl⟩
  | some attempt =>
      refine .inr ?_
      have hdef : result = witnessResult instances witness (some attempt) submitted := rfl
      simp only [witnessResult] at hdef
      split at hdef
      · split at hdef
        · exact hfinish _ .inconclusive _ _ _ _ hdef
        · exact hfinish _ _ _ _ _ _ hdef
      · split at hdef
        · exact hfinish _ .inconclusive _ _ _ _ hdef
        · exact hfinish _ _ _ _ _ _ hdef

end Join

/-! ## Many witnesses -/

/-- The strongest blocker of some states. -/
def strongestBlocker (statuses : List Status) : Status :=
  ([.failed, .inconclusive, .missing, .pending].find? fun s => s ∈ statuses).getD .met

/-- A state of a witness or a slot. -/
def Status.basic (status : Status) : Prop := status ≠ .excepted

theorem strongestBlocker_eq_met_iff {statuses : List Status} (h : ∀ s ∈ statuses, s.basic) :
    strongestBlocker statuses = .met ↔ ∀ s ∈ statuses, s = .met := by
  unfold strongestBlocker
  constructor
  · intro hmet s hs
    cases hfind : [Status.failed, .inconclusive, .missing, .pending].find? (fun s => s ∈ statuses) with
    | none =>
        rw [List.find?_eq_none] at hfind
        cases s with
        | met => rfl
        | excepted => exact absurd rfl (h _ hs)
        | _ => exact absurd (decide_eq_true hs) (hfind _ (by simp))
    | some blocker =>
        rw [hfind] at hmet
        obtain rfl : blocker = .met := hmet
        exact absurd (List.mem_of_find?_eq_some hfind) (by simp)
  · intro hall
    rw [List.find?_eq_none.mpr]
    · rfl
    · intro s hs hmem
      obtain rfl := hall s (of_decide_eq_true hmem)
      simp at hs

theorem strongestBlocker_mem {statuses : List Status} (h : strongestBlocker statuses ≠ .met) :
    strongestBlocker statuses ∈ statuses := by
  unfold strongestBlocker at h ⊢
  cases hfind : [Status.failed, .inconclusive, .missing, .pending].find? (fun s => s ∈ statuses) with
  | none =>
      rw [hfind] at h
      exact absurd rfl h
  | some blocker =>
      exact of_decide_eq_true (List.find?_some (p := fun s => decide (s ∈ statuses)) hfind)

structure Aggregate where
  status : Status
  assurance : Assurance
  identity : Identity
  execution : Execution

/-- `aggregateWitnesses`: every witness must pass, and the weakest counts. -/
def aggregateWitnesses : List WitnessResult → Aggregate
  | [] => ⟨.missing, .none, .none, .none⟩
  | first :: rest => {
      status := strongestBlocker ((first :: rest).map WitnessResult.status)
      assurance := weakest Assurance.rank first.assurance (rest.map WitnessResult.assurance)
      identity := if (first :: rest).any fun r => r.identity = .declared then .declared else .sourceBound
      execution := weakest Execution.rank first.execution (rest.map WitnessResult.execution) }

end Verification

end SingularityFlow
