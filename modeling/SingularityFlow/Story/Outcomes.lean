/-
# Outcomes: what completing a phase does

The state of a Story is its phases, in order, with a cursor, the question
that waits for a person, if one does, and the rounds that the decisions have
used.  `decisionOutcome` says what the decision after a completed phase
chooses; `resolveDecisionChoice` says where the choice of a person leads.

Rounds are counted in a plain object under the ids of the decisions.  An id
that the object inherits, `constructor`, finds a function there instead of
nothing: its `count` is undefined, then NaN, and what is stored under the id
is not kept when the Story is saved.
-/
import SingularityFlow.Story.Decisions

namespace SingularityFlow

open Ecma Approval

namespace Story

/-! ## The state of a Story -/

/-- A value that a phase records for its decision: a number for a number
input, the declared spelling for a choice. -/
inductive RecordedValue where
  | number (x : Number)
  | choice (t : Text)

abbrev RecordedValues := List (Text × RecordedValue)

structure DecisionInputs where
  decision : Text
  values : RecordedValues

/-- What rework remembers of the completion it undid. -/
structure Revalidation where
  generation : Nat
  invalidatedAt : Text
  retainable : Bool

structure Phase where
  config : PhaseConfig
  status : PhaseStatus
  generation : Nat
  approvalPolicy : ApprovalPolicy
  approvals : List ApprovalRecord
  decisionInputs : Option DecisionInputs
  reworkRevalidation : Option Revalidation
  retention : Option Nat

def Phase.id (phase : Phase) : Text := phase.config.id

structure SkillAmendment where
  approved : Bool
  affectedPhaseIds : List Text
  preservedPhaseIds : List Text

inductive PauseReason where
  | ask | limit
deriving DecidableEq

structure PendingOption where
  id : Text
  label : Text
  leadsTo : Text

/-- A number of rounds, or what `undefined + 1` gives. -/
inductive Rounds where
  | count (n : Nat)
  | nan
deriving DecidableEq

structure PendingDecision where
  decision : Text
  label : Text
  after : Text
  reason : PauseReason
  round : Option Rounds
  maxRounds : Option Nat
  byGroups : List Text
  anyStep : Bool
  values : Option RecordedValues
  options : List PendingOption

inductive StoryStatus where
  | inProgress | closed
deriving DecidableEq

/-- What is pinned when a Story starts, and its skill amendments. -/
structure Definition where
  phases : List PhaseConfig
  decisions : List Decision
  plannedClaims : Option PlannedClaims
  skillVersionAmendments : List SkillAmendment

/-- A Story; its phases stand in the order of `phaseOrder`.  `inheritedCounts`
are the names whose inherited value was given a count by this process. -/
structure Workflow where
  definition : Definition
  phases : List Phase
  status : StoryStatus
  currentPhase : Option Text
  pendingDecision : Option PendingDecision
  decisionRounds : Option (List (Text × Nat))
  inheritedCounts : List Text

def Workflow.phaseOrder (workflow : Workflow) : List Text := workflow.phases.map (·.id)

/-- `workflow.phases[id]`. -/
def Workflow.phase (workflow : Workflow) (id : Text) : Option Phase :=
  workflow.phases.find? (·.id = id)

/-! ## Rules over recorded values -/

/-- The decision pinned after a phase. -/
def decisionAfter (workflow : Workflow) (phaseId : Text) : Option Decision :=
  workflow.definition.decisions.find? (·.after = phaseId)

/-- The decision that a phase records values for. -/
def decisionFedBy (workflow : Workflow) (phaseId : Text) : Option Decision :=
  (decisionAfter workflow phaseId).filter fun decision =>
    decision.kind ≠ .ask ∧ decision.inputs.length ≠ 0

def atLeast (x bound : Number) : Bool := bound.less x || x.same bound

/-- `testHolds`, of a value that is recorded. -/
def testHolds (test : Test) (value : RecordedValue) (input : Input) : Bool :=
  match input.type with
  | .number _ _ =>
      match value with
      | .choice _ => false
      | .number x =>
          if x.isFinite = false then false
          else match test with
            | .equals y => x.same y
            | .notEquals y => !x.same y
            | .bounds least most above below =>
                least.all (atLeast x) && most.all (atLeast · x) && above.all (·.less x)
                  && below.all x.less
            | .isIn _ | .notIn _ => true
  | .choice _ =>
      match test, value with
      | .isIn values, .choice t => t ∈ values
      | .notIn values, .choice t => t ∉ values
      | .notIn _, .number _ => true
      | _, _ => false

def whenHolds (when : When) (values : RecordedValues) (inputs : List Input) : Bool :=
  when.all fun entry =>
    (inputs.find? (·.name = entry.1)).any fun input =>
      (mapGet values entry.1).any fun value => testHolds entry.2 value input

/-- The first route whose rule holds. -/
def chooseRoute (decision : Decision) (values : RecordedValues) : Option Route :=
  decision.routes.find? fun route =>
    match route.when with
    | none => true
    | some when => whenHolds when values decision.inputs

def describeBounds (least most above below : Option Number) : List Text :=
  (least.toList.map fun x => js "at least " ++ x.text)
    ++ (above.toList.map fun x => js "above " ++ x.text)
    ++ (most.toList.map fun x => js "at most " ++ x.text)
    ++ below.toList.map fun x => js "below " ++ x.text

def describeWhen (when : When) (inputs : List Input) : Text :=
  join (js " and ") (when.map fun entry =>
    let label := ((inputs.find? (·.name = entry.1)).map (·.label)).getD entry.1
    match entry.2 with
    | .isIn values => label ++ js " is " ++ join (js " or ") values
    | .notIn values => label ++ js " is not " ++ join (js " or ") values
    | .equals x => label ++ js " is " ++ x.text
    | .notEquals x => label ++ js " is not " ++ x.text
    | .bounds least most above below =>
        label ++ js " is " ++ join (js " and ") (describeBounds least most above below))

def decisionInputsHint (decision : Decision) : Text :=
  let bound := fun x : Option Number => (x.map Number.text).getD []
  join (js " ") (decision.inputs.map fun input => js "--decision " ++ input.name ++
    match input.type with
    | .number minimum maximum =>
        js "=<number" ++ (if minimum.isSome || maximum.isSome then
          js " " ++ bound minimum ++ js ".." ++ bound maximum else []) ++ js ">"
    | .choice values => js "=<" ++ join (js "|") values ++ js ">")

/-- The values a phase recorded for its decision this round. -/
def recordedDecisionValues (phase : Phase) (decision : Decision) : Option RecordedValues :=
  (phase.decisionInputs.filter fun inputs => inputs.decision = decision.id).map (·.values)

/-! ## Rounds -/

/-- `decisionRounds?.[id]?.count ?? 0`. -/
def usedRounds (workflow : Workflow) (id : Text) : Rounds :=
  match workflow.decisionRounds with
  | none => .count 0
  | some rounds =>
      match mapGet rounds id with
      | some n => .count n
      | none => if id ∈ inheritedNames ∧ id ∈ workflow.inheritedCounts then .nan else .count 0

/-- `used >= maxRounds`. -/
def Rounds.exhausted (maxRounds : Option Nat) : Rounds → Bool
  | .count n => maxRounds.getD 0 ≤ n
  | .nan => false

def Rounds.next : Rounds → Rounds
  | .count n => .count (n + 1)
  | .nan => .nan

/-- `rounds.count += 1` for a decision.  A value that is inherited is no
entry of the Story. -/
def countRound (workflow : Workflow) (id : Text) : Workflow :=
  let rounds := workflow.decisionRounds.getD []
  match mapGet rounds id with
  | some n => { workflow with decisionRounds := some (mapSet rounds id (n + 1)) }
  | none =>
      if id ∈ inheritedNames then
        { workflow with
          decisionRounds := some rounds
          inheritedCounts := id :: workflow.inheritedCounts }
      else { workflow with decisionRounds := some (mapSet rounds id 1) }

/-! ## Outcomes -/

inductive OutcomeKind where
  | next | forward | end | unknown | loop | pause (reason : PauseReason)
deriving DecidableEq

structure Outcome where
  decision : Text
  label : Text
  after : Text
  kind : OutcomeKind
  route : Option Text
  routeLabel : Option Text
  target : Option Text
  skipped : List Text
  round : Option Rounds
  maxRounds : Option Nat
  values : Option RecordedValues
  because : Option Text
  goal : Option Text

/-- The kind of an outcome that follows a route. -/
def ReachKind.outcome : ReachKind → OutcomeKind
  | .next => .next
  | .end => .end
  | .unknown => .unknown
  | .backward => .loop
  | .forward => .forward

def decisionOutcome (workflow : Workflow) (phase : Phase) : Except Failure (Option Outcome) :=
  match decisionAfter workflow phase.id with
  | none => .ok none
  | some decision =>
      if decision.kind = .ask then
        .ok (some ⟨decision.id, decision.label, phase.id, .pause .ask, none, none, none, [], none,
          none, none, none, none⟩)
      else
        match recordedDecisionValues phase decision with
        | none =>
            .error (.singularityFlow (js "Decision '" ++ decision.label ++ js "' after '" ++ phase.id
              ++ js "' has no recorded inputs. Submit '" ++ phase.id ++ js "' with "
              ++ decisionInputsHint decision ++ js ".") (some (js "DECISION_INPUTS_MISSING")))
        | some values =>
            match chooseRoute decision values with
            | none => .error (.typeError (js "Cannot read properties of null (reading 'to')"))
            | some route =>
                let reach := routeReach workflow.phaseOrder phase.id route.leadsTo
                let because := route.when.map (describeWhen · decision.inputs)
                let goal := if decision.kind = .loop then
                  some (describeWhen (decision.goal.getD []) decision.inputs) else none
                if reach.kind = .backward then
                  let used := usedRounds workflow decision.id
                  if used.exhausted decision.maxRounds then
                    .ok (some ⟨decision.id, decision.label, phase.id, .pause .limit, some route.id,
                      some route.label, none, [], some used, decision.maxRounds, some values,
                      because, goal⟩)
                  else
                    .ok (some ⟨decision.id, decision.label, phase.id, .loop, some route.id,
                      some route.label, reach.target, [], some used.next, decision.maxRounds,
                      some values, because, goal⟩)
                else
                  .ok (some ⟨decision.id, decision.label, phase.id, reach.kind.outcome,
                    some route.id, some route.label, reach.target, reach.skipped, none, none,
                    some values, because, none⟩)

/-! ## Questions for a person -/

def pendingDecisionRecord (phase : Phase) (decision : Decision) (outcome : Outcome)
    (reason : PauseReason) : PendingDecision :=
  let values := recordedDecisionValues phase decision
  let matched := if decision.enforceConditions then values.bind (chooseRoute decision) else none
  { decision := decision.id
    label := decision.label
    after := phase.id
    reason
    round := outcome.round
    maxRounds := decision.maxRounds
    byGroups := decision.byGroups
    anyStep := decision.anyStep
    values
    options := (decision.routes.filter fun route => !decision.enforceConditions
        || matched.any (·.id = route.id)).map fun route => ⟨route.id, route.label, route.leadsTo⟩ }

def stepNotAllowed (message : Text) : Failure :=
  .singularityFlow message (some (js "DECISION_STEP_NOT_ALLOWED"))

/-- The option that a person chose, or the step that they named. -/
def chosenRoute (workflow : Workflow) (pending : PendingDecision) (option step : Option Text) :
    Except Failure PendingOption :=
  match option, step with
  | some option, none =>
      match pending.options.find? (·.id = option) with
      | some route => .ok route
      | none => .error (.singularityFlow (js "'" ++ option ++ js "' is not an option of '"
          ++ pending.label ++ js "'. Options: " ++ join (js ", ") (pending.options.map fun entry =>
            entry.id ++ js " (" ++ entry.label ++ js ")") ++ js ".")
          (some (js "DECISION_OPTION_UNKNOWN")))
  | none, some step => do
      failIf (pending.anyStep = false) (stepNotAllowed (js "'" ++ pending.label
        ++ js "' offers fixed options; choose one with --option."))
      failIf (¬ (step = decisionEnd ∨ step ∈ workflow.phaseOrder))
        (stepNotAllowed (js "--to must name a phase of this Story or end."))
      .ok ⟨js "step", if step = decisionEnd then js "Finish the Story" else js "Go to "
        ++ ((workflow.phase step).bind (·.config.label)).getD step, step⟩
  | _, _ => .error (.singularityFlow (js "Choose one option with --option ("
      ++ join (js ", ") (pending.options.map (·.id)) ++ js ")"
      ++ (if pending.anyStep then js ", or a step with --to" else []) ++ js ".")
      (some (js "DECISION_CHOICE_REQUIRED")))

def resolveDecisionChoice (workflow : Workflow) (pending : PendingDecision)
    (option step : Option Text) : Except Failure (PendingOption × Reach) := do
  let route ← chosenRoute workflow pending option step
  let reach := routeReach workflow.phaseOrder pending.after route.leadsTo
  match (decisionAfter workflow pending.after).filter (·.enforceConditions) with
  | none => .ok (route, reach)
  | some decision =>
      let matched := ((workflow.phase pending.after).bind (recordedDecisionValues · decision)).bind
        (chooseRoute decision)
      match matched.filter fun allowed =>
          option.isSome ∧ allowed.id = route.id ∧ allowed.leadsTo = route.leadsTo with
      | none => .error (.singularityFlow (js "Decision '" ++ decision.label
          ++ js "' requires its recorded conditions. This verdict does not allow '" ++ route.label
          ++ js "'. Repair or recheck the evidence, reopen the intake, or cancel the Story; a human choice cannot manufacture a passing result.")
          (some (js "DECISION_CONDITION_REQUIRED")))
      | some allowed => .ok (⟨allowed.id, allowed.label, allowed.leadsTo⟩, reach)

/-- `text.replace(needle, '')`. -/
def removeFirst (needle : Text) : Text → Text
  | [] => []
  | u :: rest =>
      if needle <+: u :: rest then (u :: rest).drop needle.length else u :: removeFirst needle rest

/-- The dependency rule for a step that a person names. -/
def assertChoiceKeepsDependencies (workflow : Workflow) (pending : PendingDecision)
    (reach : Reach) : Except Failure Unit :=
  match dependencyFailures (js "Decision '" ++ pending.label ++ js "'")
      ⟨js "chosen", [], none, [], none⟩ reach (workflow.phases.map (·.config))
      workflow.definition.plannedClaims with
  | [] => .ok ()
  | message :: _ => .error (stepNotAllowed (removeFirst (js " route 'chosen'") message))

end Story

end SingularityFlow
