/-
# Decisions: what follows a phase

A Story is a list of phases.  A decision sits after one of them and chooses
what comes next: a later phase, skipping those in between, the end of the
Story, or an earlier phase again.  A `branch` and a `loop` choose by rules
over values that the phase recorded, an `ask` leaves the choice to a person.

`normalizeDecisions` checks the decisions of a work type against its phases.
Drafts are typed here, a field that is absent being `none`; that YAML data
has these types is checked by the source as well, and not modelled.
-/
import SingularityFlow.Approval.Authority
import SingularityFlow.Generation

namespace SingularityFlow

open Ecma Approval

namespace Story

/-! ## Phases as configured -/

structure PhaseInput where
  phase : Text
  optional : Bool
deriving DecidableEq

/-- What decisions read of a resolved phase.  `convergence` and `codeDelivery`
stand for what `isConvergencePhase` and `phaseRequiresCodeDelivery` answer. -/
structure PhaseConfig where
  id : Text
  label : Option Text
  approval : Option ApprovalPolicy
  inputs : List PhaseInput
  testEvidenceFrom : Option Text
  convergence : Bool
  codeDelivery : Bool

/-- `phase.approval?.mode`. -/
def PhaseConfig.approvalMode (phase : PhaseConfig) : Option ApprovalMode :=
  phase.approval.map (·.mode)

/-- The phases that a phase cannot do without: those it reads, and the one
whose test evidence it reviews. -/
def PhaseConfig.required (phase : PhaseConfig) : List Text :=
  (phase.inputs.filter (·.optional = false)).map (·.phase) ++ phase.testEvidenceFrom.toList

structure PlannedClaims where
  required : Bool
  clausePhases : List Text
  owners : List (Text × Text)

/-! ## Decisions -/

inductive DecisionKind where
  | branch | loop | ask
deriving DecidableEq

/-- A value of a rule, as configured: `5`, `high`, `[high, low]`, `{ not: … }`
or bounds. -/
inductive TestDraft where
  | number (x : Number)
  | choice (t : Text)
  | choices (l : List Text)
  | notNumber (x : Number)
  | notChoices (l : List Text)
  | bounds (atLeast atMost above below : Option Number)

structure InputDraft where
  name : Text
  label : Option Text
  type : Option Text
  values : Option (List Text)
  minimum : Option Number
  maximum : Option Number

structure RouteDraft where
  id : Text
  label : Option Text
  when : Option (List (Text × TestDraft))
  leadsTo : Text
  omits : Option (List Text)

structure DecisionDraft where
  id : Text
  after : Text
  kind : Text
  label : Option Text
  inputs : Option (List InputDraft)
  routes : Option (List RouteDraft)
  goal : Option (List (Text × TestDraft))
  back : Option Text
  maxRounds : Option Number
  byGroups : Option (List Text)
  anyStep : Option Bool
  enforceConditions : Option Bool

inductive InputType where
  | number (minimum maximum : Option Number)
  | choice (values : List Text)

structure Input where
  name : Text
  label : Text
  type : InputType

/-- A canonical test of one recorded value. -/
inductive Test where
  | equals (x : Number)
  | notEquals (x : Number)
  | bounds (atLeast atMost above below : Option Number)
  | isIn (values : List Text)
  | notIn (values : List Text)

/-- A rule: the tests of the values it names. -/
abbrev When := List (Text × Test)

/-- A route; `omits` lists the responsibilities it leaves undone. -/
structure Route where
  id : Text
  label : Text
  when : Option When
  leadsTo : Text
  omits : Option (List Text)

structure Decision where
  id : Text
  after : Text
  kind : DecisionKind
  label : Text
  inputs : List Input
  routes : List Route
  goal : Option When
  maxRounds : Option Nat
  byGroups : List Text
  anyStep : Bool
  enforceConditions : Bool

namespace Limits

def routes : Nat := 10
def inputs : Nat := 10
def values : Nat := 20
def label : Nat := 120
def value : Nat := 60
def rounds : Nat := 20

end Limits

def defaultDecisionRounds : Nat := 3

def decisionNext : Text := js "next"
def decisionEnd : Text := js "end"

/-! ## Where a route leads -/

inductive ReachKind where
  | next | end | unknown | backward | forward
deriving DecidableEq

structure Reach where
  kind : ReachKind
  target : Option Text
  skipped : List Text
deriving DecidableEq

/-- `order.indexOf(id) + 1`. -/
def positionAfter (order : List Text) (id : Text) : Nat :=
  if id ∈ order then order.idxOf id + 1 else 0

def routeReach (order : List Text) (afterId leadsTo : Text) : Reach :=
  let position := positionAfter order afterId
  if leadsTo = decisionNext then
    match order[position]? with
    | some target => ⟨.next, some target, []⟩
    | none => ⟨.end, none, []⟩
  else if leadsTo = decisionEnd then ⟨.end, none, order.drop position⟩
  else if leadsTo ∉ order then ⟨.unknown, some leadsTo, []⟩
  else
    let target := order.idxOf leadsTo
    if target < position then ⟨.backward, some leadsTo, []⟩
    else ⟨if target = position then .next else .forward, some leadsTo,
      (order.take target).drop position⟩

/-! ## Texts -/

def invalid (message : Text) : Failure :=
  .singularityFlow message (some (js "WORKFLOW_DECISION_INVALID"))

/-- `if (messages are found) throw invalid(the first)`. -/
def throwFirst : List Text → Except Failure Unit
  | [] => .ok ()
  | message :: _ => .error (invalid message)

def quoted (t : Text) : Text := js "'" ++ t ++ js "'"

/-- `list`. -/
def quotedList (values : List Text) : Text :=
  match values.reverse with
  | [] => []
  | [t] => quoted t
  | last :: rest => join (js ", ") (rest.reverse.map quoted) ++ js " and " ++ quoted last

/-- `text`, of a value that is required. -/
def text (value : Option Text) (label : Text) (limit : Nat) : Except Failure Text := do
  let trimmed := trim (value.getD [])
  failIf (trimmed = []) (invalid (label ++ js " must be non-empty text."))
  failIf (trimmed.length > limit ∨ trimmed.any (fun u => u.toNat ≤ 0x1F || u = 0x7F) = true)
    (invalid (label ++ js " must be at most " ++ natText limit ++ js " characters on one line."))
  .ok trimmed

/-- `text(…, { required: false }) ?? name`. -/
def textOr (value : Option Text) (label name : Text) : Except Failure Text :=
  match value with
  | none => .ok name
  | some _ => text value label Limits.label

/-- A unit that `[A-Za-z0-9]` matches. -/
def isAlnum (u : UInt16) : Bool := isLowerAlnum (lowerAscii u)

/-- `/^[a-z][A-Za-z0-9]*(?:-[A-Za-z0-9]+)*$/`. -/
def isInputName (t : Text) : Bool :=
  (t.head?.any fun u => 0x61 ≤ u.toNat && u.toNat ≤ 0x7A)
    && (t.splitOn 0x2D).all fun part => part ≠ [] && part.all isAlnum

variable (tables : UnicodeTables)

/-! ## Inputs -/

def boundsInvalid (minimum maximum : Option Number) : Bool :=
  match minimum, maximum with
  | some low, some high => high.less low
  | _, _ => false

def normalizeInput (label : Text) (input : InputDraft) : Except Failure Input := do
  let display ← textOr input.label (label ++ js ".label") input.name
  if input.type = some (js "number") then do
    failIf (input.values.isSome = true) (invalid (label
      ++ js " is a number, so it takes minimum and maximum instead of values."))
    failIf (input.minimum.any (!·.isFinite) = true)
      (invalid (label ++ js ".minimum must be a number."))
    failIf (input.maximum.any (!·.isFinite) = true)
      (invalid (label ++ js ".maximum must be a number."))
    failIf (boundsInvalid input.minimum input.maximum = true)
      (invalid (label ++ js ".minimum must not be greater than its maximum."))
    .ok ⟨input.name, display, .number input.minimum input.maximum⟩
  else do
    failIf (input.type.any (· ≠ js "choice") = true)
      (invalid (label ++ js ".type must be choice or number."))
    failIf (input.minimum.isSome = true ∨ input.maximum.isSome = true) (invalid (label
      ++ js " is a choice, so it takes values instead of minimum and maximum."))
    let drafts := input.values.getD []
    failIf (drafts = [] ∨ drafts.length > Limits.values)
      (invalid (label ++ js ".values must list 1 to " ++ natText Limits.values ++ js " choices."))
    let values ← sequence (drafts.mapIdx fun index choice =>
      text (some choice) (label ++ js ".values[" ++ natText index ++ js "]") Limits.value)
    failIf (¬ (values.map tables.toLowerCase).Nodup)
      (invalid (label ++ js ".values must not repeat a choice."))
    .ok ⟨input.name, display, .choice values⟩

/-- The loop over the inputs; `names` are those before. -/
def normalizeInputList (location : Text) : List Text → Nat → List InputDraft →
    Except Failure (List Input)
  | _, _, [] => .ok []
  | names, index, input :: rest => do
      let label := location ++ js ".inputs[" ++ natText index ++ js "]"
      failIf (isInputName input.name = false ∨ input.name.length > 40) (invalid (label
        ++ js ".name must start with a letter and use letters, digits and hyphens (at most 40)."))
      failIf (input.name ∈ names)
        (invalid (location ++ js " records '" ++ input.name ++ js "' twice."))
      let normalized ← normalizeInput tables label input
      let others ← normalizeInputList location (input.name :: names) (index + 1) rest
      .ok (normalized :: others)

def normalizeInputs (value : Option (List InputDraft)) (location : Text) :
    Except Failure (List Input) :=
  match value with
  | none => .ok []
  | some inputs => do
      failIf (inputs.length > Limits.inputs) (invalid (location
        ++ js ".inputs must be a list of at most " ++ natText Limits.inputs
        ++ js " values the phase records."))
      normalizeInputList tables location [] 0 inputs

/-! ## Rules -/

/-- `choose`: the declared spelling of each choice, once. -/
def choose (input : Input) (declared choices : List Text) (location : Text) :
    Except Failure (List Text) := do
  failIf (choices = []) (invalid (location ++ js " must name at least one choice."))
  let found ← sequence (choices.map fun choice =>
    match declared.find? (fun d => tables.toLowerCase d = tables.toLowerCase (trim choice)) with
    | some d => .ok d
    | none => .error (invalid (location ++ js " uses '" ++ choice ++ js "', which is not one of "
        ++ input.label ++ js "'s choices (" ++ join (js ", ") declared ++ js ").")))
  .ok (distinct found)

def normalizeTest (value : TestDraft) (input : Input) (label : Text) : Except Failure Test :=
  match input.type with
  | .number _ _ =>
      match value with
      | .number x => do
          failIf (x.isFinite = false) (invalid (label ++ js " must be a number."))
          .ok (.equals x)
      | .choice _ | .choices _ =>
          .error (invalid (label
            ++ js " must be a number, \x7b not: N \x7d, or bounds such as \x7b atLeast: N \x7d."))
      | .notNumber x => do
          failIf (x.isFinite = false) (invalid (label ++ js ".not must be a number."))
          .ok (.notEquals x)
      | .notChoices _ => .error (invalid (label ++ js ".not must be a number."))
      | .bounds atLeast atMost above below => do
          failIf ([atLeast, atMost, above, below].all (·.isNone) = true)
            (invalid (label ++ js " may use atLeast, atMost, above and below."))
          failIf (atLeast.any (!·.isFinite) = true)
            (invalid (label ++ js ".atLeast must be a number."))
          failIf (atMost.any (!·.isFinite) = true)
            (invalid (label ++ js ".atMost must be a number."))
          failIf (above.any (!·.isFinite) = true) (invalid (label ++ js ".above must be a number."))
          failIf (below.any (!·.isFinite) = true) (invalid (label ++ js ".below must be a number."))
          .ok (.bounds atLeast atMost above below)
  | .choice declared =>
      match value with
      | .number x => do
          let values ← choose tables input declared [x.text] label
          .ok (.isIn values)
      | .choice t => do
          let values ← choose tables input declared [t] label
          .ok (.isIn values)
      | .choices l => do
          let values ← choose tables input declared l label
          .ok (.isIn values)
      | .notNumber x => do
          let values ← choose tables input declared [x.text] (label ++ js ".not")
          .ok (.notIn values)
      | .notChoices l => do
          let values ← choose tables input declared l (label ++ js ".not")
          .ok (.notIn values)
      | .bounds .. =>
          .error (invalid (label
            ++ js " must be a choice, a list of choices, or \x7b not: ... \x7d."))

/-- `normalizeWhen`, of a rule that is required. -/
def normalizeWhen (value : Option (List (Text × TestDraft))) (inputs : List Input) (label : Text) :
    Except Failure When :=
  match value with
  | none => .error (invalid (label ++ js " must say which recorded values meet it."))
  | some tests => do
      failIf (tests = []) (invalid (label
        ++ js " must map recorded values to what they must be, for example \x7b risk: high \x7d."))
      sequence (tests.map fun entry =>
        match inputs.find? (·.name = entry.1) with
        | none =>
            .error (invalid (label ++ js " refers to '" ++ entry.1
              ++ js "', which is not one of this decision's inputs"
              ++ (if inputs = [] then [] else
                js " (" ++ join (js ", ") (inputs.map (·.name)) ++ js ")") ++ js "."))
        | some input => do
            let test ← normalizeTest tables entry.2 input (label ++ js "." ++ entry.1)
            .ok (entry.1, test))

/-! ## Routes -/

/-- The rule of a route; `last` routes and the options of an `ask` have none. -/
def routeWhen (kind : DecisionKind) (last : Bool) (inputs : List Input) (label : Text)
    (when : Option (List (Text × TestDraft))) : Except Failure (Option When) :=
  if kind = .ask then do
    failIf (when.isSome = true) (invalid (label
      ++ js ": an ask decision's options are chosen by a person, so they take no when."))
    .ok none
  else if last then do
    failIf (when.isSome = true) (invalid (label
      ++ js " is the last route, so it takes everything else and needs no when."))
    .ok none
  else do
    let rule ← normalizeWhen tables when inputs (label ++ js ".when")
    .ok (some rule)

/-- The loop over the routes; `ids` are those before. -/
def normalizeRouteList (location : Text) (kind : DecisionKind) (inputs : List Input)
    (order : List Text) : List Text → Nat → List RouteDraft → Except Failure (List Route)
  | _, _, [] => .ok []
  | ids, index, route :: rest => do
      let label := location ++ js ".routes[" ++ natText index ++ js "]"
      failIf (kebabCase route.id = false)
        (invalid (label ++ js ".id must be a lowercase kebab-case id."))
      failIf (route.id ∈ ids)
        (invalid (location ++ js " has two routes named '" ++ route.id ++ js "'."))
      let display ← text route.label (label ++ js ".label") Limits.label
      failIf (¬ (route.leadsTo = decisionNext ∨ route.leadsTo = decisionEnd ∨ route.leadsTo ∈ order))
        (invalid (label ++ js ".to must be a phase in this workflow, next, or end."))
      let when ← routeWhen tables kind (rest.length = 0) inputs label route.when
      let others ← normalizeRouteList location kind inputs order (route.id :: ids) (index + 1) rest
      .ok (⟨route.id, display, when, route.leadsTo, route.omits⟩ :: others)

def normalizeRoutes (value : Option (List RouteDraft)) (location : Text) (kind : DecisionKind)
    (inputs : List Input) (order : List Text) : Except Failure (List Route) := do
  let routes := value.getD []
  failIf (routes.length < 2 ∨ routes.length > Limits.routes) (invalid (location
    ++ js ".routes must list 2 to " ++ natText Limits.routes ++ js " "
    ++ (if kind = .ask then js "options" else js "routes") ++ js "."))
  normalizeRouteList tables location kind inputs order [] 0 routes

/-- `normalizeBy`; `authorities` are the configured groups. -/
def normalizeBy (value : Option (List Text)) (after : PhaseConfig) (authorities : List Text)
    (location : Text) : Except Failure (List Text) := do
  failIf (value.any (fun configured => configured = [] || configured.any (trim · = [])) = true)
    (invalid (location ++ js ".by must name one or more approval groups."))
  let groups := match value with
    | some configured => distinct (configured.map trim)
    | none => if after.approvalMode = none ∨ after.approvalMode = some .none then []
        else (after.approval.map (·.authorities)).getD []
  throwFirst ((groups.filter (· ∉ authorities)).map fun id =>
    location ++ js ".by names unknown approval group '" ++ id ++ js "'.")
  .ok groups

/-! ## Dependencies that a route must keep -/

/-- `byId.get(id)`: of phases with one id, the last. -/
def phaseById (phases : List PhaseConfig) (id : Text) : Option PhaseConfig :=
  phases.reverse.find? (·.id = id)

/-- A phase that the route still reaches reads a skipped one. -/
def strandedReaders (location routeId : Text) (skipped : List Text) (phase : PhaseConfig) :
    List Text :=
  ((phase.inputs.filter fun input => input.phase ∈ skipped ∧ input.optional = false).map
    fun input => location ++ js " route '" ++ routeId ++ js "' skips '" ++ input.phase
      ++ js "', which '" ++ phase.id
      ++ js "' reads. Mark that input optional in this workflow, or do not skip '" ++ input.phase
      ++ js "'.")
  ++ ((phase.testEvidenceFrom.toList.filter (· ∈ skipped)).map fun source =>
      location ++ js " route '" ++ routeId ++ js "' skips '" ++ source
        ++ js "', whose test evidence '" ++ phase.id ++ js "' reviews.")

/-- Claims that are planned or defined and would never be met. -/
def strandedClaims (location : Text) (route : Route) (phases : List PhaseConfig)
    (order skipped reached : List Text) (claims : PlannedClaims) : List Text :=
  let requiresCode := fun id => (phaseById phases id).any (·.codeDelivery)
  let planners := claims.clausePhases ++ claims.owners.map Prod.snd
  let skippedPlanners := skipped.filter (· ∈ planners)
  let omitsImplementation := (route.omits.getD []).any (· = js "implement")
  (if skippedPlanners = [] then [] else
    ((reached.filter requiresCode).take 1).map fun code =>
      location ++ js " route '" ++ route.id ++ js "' skips " ++ quotedList skippedPlanners
        ++ js ", which plan the claims '" ++ code ++ js "' must meet.")
  ++ (if omitsImplementation then [] else
    (skipped.filter requiresCode).filterMap fun codeId =>
      match mapGet claims.owners codeId with
      | some owner =>
          if owner = [] ∨ owner ∈ skipped then none else
            some (location ++ js " route '" ++ route.id ++ js "' skips '" ++ codeId
              ++ js "', which must meet the claims '" ++ owner
              ++ js "' plans. A Story taking this route would finish with those claims unimplemented: route to '"
              ++ codeId ++ js "' or an earlier phase instead.")
      | none => none)
  ++ (if omitsImplementation then [] else
    claims.clausePhases.filterMap fun clausePhase =>
      let laterCode := (order.drop (positionAfter order clausePhase)).filter requiresCode
      if clausePhase ∈ skipped ∨ clausePhase ∉ order ∨ laterCode = []
          ∨ laterCode.any (· ∉ skipped) = true then none else
        some (location ++ js " route '" ++ route.id ++ js "' skips every code phase after '"
          ++ clausePhase ++ js "' (" ++ quotedList laterCode ++ js "), so the requirements '"
          ++ clausePhase
          ++ js "' defines would never be implemented. Route to one of those phases, or decide before '"
          ++ clausePhase ++ js "' runs."))

/-- The messages of `assertRouteKeepsDependencies`, in the order of its tests. -/
def dependencyFailures (location : Text) (route : Route) (reach : Reach)
    (phases : List PhaseConfig) (plannedClaims : Option PlannedClaims) : List Text :=
  if reach.skipped = [] then []
  else
    let order := phases.map (·.id)
    let reached := match reach.target with
      | some target => order.drop (order.idxOf target)
      | none => []
    (reached.filterMap (phaseById phases)).flatMap
        (strandedReaders location route.id reach.skipped)
      ++ match plannedClaims with
        | some claims =>
            if claims.required then
              strandedClaims location route phases order reach.skipped reached claims
            else []
        | none => []

def assertRouteKeepsDependencies (location : Text) (route : Route) (reach : Reach)
    (phases : List PhaseConfig) (plannedClaims : Option PlannedClaims) : Except Failure Unit :=
  throwFirst (dependencyFailures location route reach phases plannedClaims)

/-! ## Normalization -/

def decisionKind (name : Text) : Option DecisionKind :=
  if name = js "branch" then some .branch
  else if name = js "loop" then some .loop
  else if name = js "ask" then some .ask
  else none

/-- What a work type is checked against. -/
structure DecisionContext where
  workTypeId : Text
  phases : List PhaseConfig
  approvalAuthorities : List Text
  plannedClaims : Option PlannedClaims

def DecisionContext.order (context : DecisionContext) : List Text := context.phases.map (·.id)

/-- The routes of a decision, and the goal of a loop. -/
def decisionRoutes (context : DecisionContext) (entry : DecisionDraft) (kind : DecisionKind)
    (location : Text) (inputs : List Input) : Except Failure (List Route × Option When) :=
  let order := context.order
  if kind = .loop then do
    failIf (entry.routes.isSome = true) (invalid (location
      ++ js " is a loop: give goal, back and maxRounds instead of routes."))
    let goal ← normalizeWhen tables entry.goal inputs (location ++ js ".goal")
    match entry.back.filter fun back => back ∈ order ∧ order.idxOf back ≤ order.idxOf entry.after with
    | none =>
        .error (invalid (location ++ js ".back must name '" ++ entry.after
          ++ js "' or an earlier phase in this workflow."))
    | some back =>
        let label := ((phaseById context.phases back).bind (·.label)).getD back
        .ok ([⟨js "goal-met", js "Goal met", some goal, decisionNext, none⟩,
          ⟨js "again", js "Back to " ++ label, none, back, none⟩], some goal)
  else do
    failIf (entry.goal.isSome = true ∨ entry.back.isSome = true)
      (invalid (location ++ js ": goal and back belong to loop decisions."))
    let routes ← normalizeRoutes tables entry.routes location kind inputs order
    .ok (routes, none)

def decisionMaxRounds (entry : DecisionDraft) (kind : DecisionKind) (location : Text)
    (goesBack : Bool) : Except Failure (Option Nat) :=
  if kind = .ask then do
    failIf (entry.maxRounds.isSome = true) (invalid (location
      ++ js ".maxRounds applies to branch and loop decisions; a person chooses every round of an ask."))
    .ok none
  else if goesBack then
    let rounds := (entry.maxRounds.getD (Number.ofNat defaultDecisionRounds)).integer?
    match rounds.filter fun n : Int => 1 ≤ n ∧ n ≤ (Limits.rounds : Int) with
    | none =>
        .error (invalid (location ++ js ".maxRounds must be a whole number from 1 to "
          ++ natText Limits.rounds ++ js "."))
    | some n => .ok (some n.toNat)
  else do
    failIf (entry.maxRounds.isSome = true)
      (invalid (location ++ js ".maxRounds needs a route that goes back."))
    .ok none

/-- A rule goes back, or past a phase that people sign off, only after one. -/
def unsignedRoutes (context : DecisionContext) (after : PhaseConfig) (location : Text)
    (routes : List Route) : List Text :=
  if after.approvalMode = some .required then []
  else routes.flatMap fun route =>
    let reach := routeReach context.order after.id route.leadsTo
    let gated := reach.skipped.filter fun id =>
      ((phaseById context.phases id).bind (·.approvalMode)).getD .required ≠ .none
    (if reach.kind = .backward then
      [location ++ js " route '" ++ route.id ++ js "' goes back to '" ++ route.leadsTo
        ++ js "'. A rule may send work back only after a phase a person signs off: require approval on '"
        ++ after.id ++ js "', or make this an ask decision."] else [])
    ++ if gated = [] then [] else
      [location ++ js " route '" ++ route.id ++ js "' skips " ++ quotedList gated
        ++ js ", which people sign off. Only a phase a person signs off can decide to skip them: require approval on '"
        ++ after.id ++ js "', or make this an ask decision."]

/-- One decision; `ids` and `afters` are those of the decisions before. -/
def normalizeDecision (context : DecisionContext) (ids afters : List Text) (index : Nat)
    (entry : DecisionDraft) : Except Failure Decision := do
  let start := js "Work type '" ++ context.workTypeId ++ js "' decisions"
  let label := start ++ js "[" ++ natText index ++ js "]"
  let order := context.order
  failIf (kebabCase entry.id = false)
    (invalid (label ++ js ".id must be a lowercase kebab-case id."))
  failIf (entry.id ∈ ids) (invalid (start ++ js " name '" ++ entry.id ++ js "' twice."))
  let location := start ++ js " '" ++ entry.id ++ js "'"
  match phaseById context.phases entry.after with
  | none => .error (invalid (location ++ js ".after must name a phase in this workflow."))
  | some after => do
      failIf (entry.after ∈ afters) (invalid (location ++ js ": phase '" ++ entry.after
        ++ js "' already has a decision after it."))
      failIf (after.convergence = true) (invalid (location ++ js " cannot follow convergence phase '"
        ++ after.id ++ js "'; convergence already ends in a person's disposition."))
      match decisionKind entry.kind with
      | none => .error (invalid (location ++ js ".kind must be branch, loop, or ask."))
      | some kind => do
          failIf (entry.enforceConditions.isSome = true ∧ kind = .ask) (invalid (location
            ++ js ".enforceConditions is true or false, and only on branch or loop decisions."))
          let display ← text entry.label (location ++ js ".label") Limits.label
          failIf (kind = .ask ∧ entry.inputs.isSome = true) (invalid (location
            ++ js " is an ask decision: a person chooses, so it records no inputs."))
          let inputs ← normalizeInputs tables entry.inputs location
          failIf (kind ≠ .ask ∧ inputs = [])
            (invalid (location ++ js " must declare the inputs its rules read."))
          let (routes, goal) ← decisionRoutes tables context entry kind location inputs
          let reaches := routes.map fun route => routeReach order after.id route.leadsTo
          let goesBack := reaches.any (·.kind = .backward)
          let maxRounds ← decisionMaxRounds entry kind location goesBack
          failIf (entry.anyStep.isSome = true ∧ kind ≠ .ask) (invalid (location
            ++ js ".anyStep is true or false, and only on ask decisions."))
          throwFirst (if kind = .ask then [] else unsignedRoutes context after location routes)
          let byGroups ← normalizeBy entry.byGroups after context.approvalAuthorities location
          failIf ((kind = .ask ∨ goesBack = true) ∧ byGroups = []) (invalid (location
            ++ js " needs by: the approval groups whose members "
            ++ (if kind = .ask then js "choose" else js "decide when the rounds run out")
            ++ js ". '" ++ after.id ++ js "' has no approvers to default to."))
          throwFirst (routes.flatMap fun route => dependencyFailures location route
            (routeReach order after.id route.leadsTo) context.phases context.plannedClaims)
          .ok ⟨entry.id, after.id, kind, display, inputs, routes, goal, maxRounds, byGroups,
            kind = .ask && entry.anyStep.getD false, entry.enforceConditions.getD false⟩

/-- The loop over the decisions. -/
def normalizeDecisionList (context : DecisionContext) : List Text → List Text → Nat →
    List DecisionDraft → Except Failure (List Decision)
  | _, _, _, [] => .ok []
  | ids, afters, index, entry :: rest => do
      let decision ← normalizeDecision tables context ids afters index entry
      let others ← normalizeDecisionList context (entry.id :: ids) (entry.after :: afters)
        (index + 1) rest
      .ok (decision :: others)

def normalizeDecisions (value : Option (List DecisionDraft)) (context : DecisionContext) :
    Except Failure (List Decision) :=
  normalizeDecisionList tables context [] [] 0 (value.getD [])

end Story

end SingularityFlow
