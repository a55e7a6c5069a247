/-
# Compiling a work type into its obligations

The steps of a work type and its routes are a graph: the natural order, the routes
of decisions, and the ways back.  `compileObligationGraph` asks of this graph which
responsibilities every route to an end has behind it, whether a step that
implements has a plan behind it, and whether what a step verifies meets a review
before the end.  The answers are fixed points, found by passes over the steps
until one changes nothing.

Of the findings those about routes are modelled, each by its code and the step or
the edge that it names; the end of a Story is `none`.
-/
import SingularityFlow.Lib.Text
import SingularityFlow.Lib.Passes
import Mathlib.Data.Finset.Card
import Mathlib.Data.Fintype.Defs

namespace SingularityFlow

open Ecma Passes

namespace Evidence

/-! ## Responsibilities -/

/-- `BIT`: the responsibilities, and that a person does the review. -/
inductive Duty where
  | scope | plan | implement | verify | review | humanReview
deriving DecidableEq

instance : Fintype Duty where
  elems := {.scope, .plan, .implement, .verify, .review, .humanReview}
  complete duty := by cases duty <;> decide

/-- `REQUIRED`. -/
def required : List Duty := [.scope, .plan, .implement, .verify, .review]

inductive ApprovalMode where
  | none | policy | required
deriving DecidableEq

structure Approval where
  mode : ApprovalMode
  rejectTo : List Text
deriving DecidableEq

/-- A step, as far as its responsibilities and its ways back depend on it. -/
structure Phase where
  id : Text
  artifactKind : Option Text
  /-- `isSpecificationDefinitionPhase`. -/
  specification : Bool
  /-- `phaseRequiresCodeDelivery`. -/
  codeDelivery : Bool
  /-- `writeScope === 'source-and-artifact'`. -/
  writesSource : Bool
  testEvidenceFrom : Option Text
  approval : Option Approval
deriving DecidableEq

inductive ClaimsMode where
  | required | omitted | retiredOptOut | other
deriving DecidableEq

structure PlannedClaims where
  mode : ClaimsMode
  clausePhases : List Text
  /-- The values of `owners`. -/
  owners : List Text
deriving DecidableEq

inductive ReviewKind where
  | policy | human
deriving DecidableEq

def reviewKind (phase : Phase) : Option ReviewKind :=
  match phase.approval with
  | none => none
  | some approval =>
      match approval.mode with
      | .none => none
      | .policy => some .policy
      | .required => some .human

def phaseResponsibilities (plannedClaims : Option PlannedClaims) (hasCodeStep : Bool) (phase : Phase) :
    List Duty :=
  let definesClauses :=
    match plannedClaims with
    | some claims =>
        if claims.mode = .required then phase.id ∈ claims.clausePhases
        else phase.artifactKind.isSome && phase.specification
    | none => phase.artifactKind.isSome && phase.specification
  let plans := (plannedClaims.any fun claims => phase.id ∈ claims.owners)
    || phase.artifactKind = some (js "delivery-plan")
    || phase.artifactKind = some (js "implementation-plan")
    || (!hasCodeStep && definesClauses)
  let implements := phase.codeDelivery || phase.writesSource
  let verifies := phase.codeDelivery || phase.artifactKind = some (js "test-evidence")
    || phase.artifactKind = some (js "visual-test-evidence")
    || phase.testEvidenceFrom.any (· ≠ [])
  required.filter fun duty =>
    match duty with
    | .scope => definesClauses
    | .plan => plans
    | .implement => implements
    | .verify => verifies
    | .review => (reviewKind phase).isSome
    | .humanReview => false

/-! ## Work types -/

/-- A declared omission, as it is written; an unknown responsibility is none. -/
structure RawOmission where
  responsibility : Option Duty
  reason : Text
  authority : Option Text
deriving DecidableEq

structure Omission where
  responsibility : Duty
  reason : Text
  authority : Option Text
deriving DecidableEq

/-- `normalizeOmits`, without its problems. -/
def normalizeOmits (value : List RawOmission) : List Omission :=
  value.filterMap fun entry =>
    match entry.responsibility with
    | some responsibility =>
        if responsibility ∈ required then some ⟨responsibility, trim entry.reason, entry.authority⟩
        else none
    | none => none

structure Route where
  id : Text
  target : Text
  omits : Option (List RawOmission)
deriving DecidableEq

structure Decision where
  id : Text
  after : Text
  anyStep : Bool
  routes : List Route
deriving DecidableEq

/-- A resolved work type: the ids of its steps are distinct, and a decision has
routes, each to a step, to the next one or to the end. -/
structure WorkType where
  phases : List Phase
  decisions : List Decision
  reworkLoops : List (Text × Text)
  omits : List RawOmission
  plannedClaims : Option PlannedClaims
  distinctIds : (phases.map Phase.id).Nodup
  routed : ∀ decision ∈ decisions, decision.routes ≠ []
  known : ∀ decision ∈ decisions, ∀ route ∈ decision.routes,
    route.target = js "end" ∨ route.target = js "next" ∨ route.target ∈ phases.map Phase.id

def WorkType.order (workType : WorkType) : List Text := workType.phases.map Phase.id

/-! ## The route graph -/

inductive EdgeKind where
  | next | route | rework
deriving DecidableEq

/-- An edge; the target is `none` at the end. -/
structure Edge where
  source : Text
  target : Option Text
  kind : EdgeKind
  decision : Option Text
  route : Option Text
  omits : List Omission
deriving DecidableEq

/-- The edge omits a responsibility. -/
def Edge.omitting (edge : Edge) (duty : Duty) : Bool :=
  edge.omits.any fun omission => omission.responsibility = duty

/-- By what an edge is the same as another. -/
def Edge.key (edge : Edge) : Text × Option Text × EdgeKind × Option Text × Option Text :=
  (edge.source, edge.target, edge.kind, edge.decision, edge.route)

/-- An edge that is set in a map: in the place of one with its key, or behind. -/
def setEdge (edges : List Edge) (edge : Edge) : List Edge :=
  if edges.any fun e => e.key = edge.key then edges.map fun e => if e.key = edge.key then edge else e
  else edges ++ [edge]

def uniqueEdges (edges : List Edge) : List Edge := edges.foldl setEdge []

/-- The ways on from a step. -/
def onwardEdges (workType : WorkType) (index : Nat) (id : Text) : List Edge :=
  let next := workType.order[index + 1]?
  let naturalOmits := normalizeOmits workType.omits
  match workType.decisions.find? fun decision => decision.after = id with
  | none => [⟨id, next, .next, none, none, if next = none then naturalOmits else []⟩]
  | some decision =>
      if decision.anyStep then
        ((workType.order.filter (· ≠ id)).map fun target =>
            ⟨id, some target, .route, some decision.id, some (js "any-step:" ++ target), []⟩)
          ++ [⟨id, none, .route, some decision.id, some (js "any-step:end"), []⟩]
      else
        decision.routes.map fun route =>
          let target := if route.target = js "end" then none else if route.target = js "next" then next
            else some route.target
          let omits :=
            match route.omits with
            | some omits => normalizeOmits omits
            | none => if route.target = js "next" ∧ target = none then naturalOmits else []
          ⟨id, target, .route, some decision.id, some route.id, omits⟩

/-- The ways back from a step. -/
def backEdges (workType : WorkType) (index : Nat) (phase : Phase) : List Edge :=
  let rejectTo := (phase.approval.map Approval.rejectTo).getD []
  (rejectTo.filter fun back => back ≠ phase.id && back ∈ workType.order
      && workType.order.idxOf back < index).map
    fun back => ⟨phase.id, some back, .rework, none, none, []⟩

def loopEdges (workType : WorkType) : List Edge :=
  (workType.reworkLoops.filter fun loop => loop.1 ∈ workType.order && loop.2 ∈ workType.order).map
    fun loop => ⟨loop.1, some loop.2, .rework, none, none, []⟩

/-- The edges of `routeGraph`. -/
def routeEdges (workType : WorkType) : List Edge :=
  uniqueEdges ((workType.phases.zipIdx.flatMap fun entry =>
    onwardEdges workType entry.2 entry.1.id ++ backEdges workType entry.2 entry.1)
      ++ loopEdges workType)

/-! ## The analyses -/

structure Node where
  id : Text
  responsibilities : List Duty
  reviewKind : Option ReviewKind
deriving DecidableEq

def nodesOf (workType : WorkType) : List Node :=
  let hasCodeStep := workType.phases.any Phase.codeDelivery
  workType.phases.map fun phase =>
    ⟨phase.id, phaseResponsibilities workType.plannedClaims hasCodeStep phase, reviewKind phase⟩

/-- What a node does: `gen`. -/
def Node.mask (node : Node) : Finset Duty :=
  node.responsibilities.toFinset ∪ if node.reviewKind = some .human then {.humanReview} else ∅

/-- A graph as the analyses read it: the ids in their order, what each does, and
the edges. -/
structure Graph where
  order : List Text
  gen : Text → Finset Duty
  edges : List Edge

def graphOf (workType : WorkType) : Graph where
  order := workType.order
  gen id := (((nodesOf workType).find? (·.id = id)).map Node.mask).getD ∅
  edges := routeEdges workType

namespace Graph

variable (graph : Graph)

def forward : List Edge := graph.edges.filter fun edge => edge.target ≠ none

def outgoing (id : Text) : List Edge := graph.edges.filter fun edge => edge.source = id

/-- `preds`. -/
def preds (id : Text) : List Text :=
  (graph.edges.filter fun edge => edge.target = some id).map Edge.source

/-- An edge whose target is reached by it. -/
def reach : Action (List Text) Edge where
  changes reached edge := edge.source ∈ reached && edge.target.any (· ∉ reached)
  apply reached edge := reached ++ edge.target.toList

/-- `reachable`. -/
def reachable : List Text :=
  settle reach graph.forward (graph.forward.length + 1) (graph.order.head?.toList)

/-- What every route into a step has done, and what it has done behind the step. -/
def intoNext (values : Text → Finset Duty × Finset Duty) (id : Text) : Finset Duty × Finset Duty :=
  if id ∉ graph.reachable then values id
  else
    let incoming := (graph.preds id).filter (· ∈ graph.reachable)
    let mask :=
      if graph.order.head? = some id ∨ incoming = [] then ∅
      else incoming.foldl (fun mask source => mask ∩ (values source).2) Finset.univ
    (mask, mask ∪ graph.gen id)

/-- `into` and `out`, as they begin. -/
def masksStart (id : Text) : Finset Duty × Finset Duty :=
  let mask := if graph.order.head? = some id then ∅ else Finset.univ
  (mask, mask ∪ graph.gen id)

/-- `into` and `out`. -/
def masks : Text → Finset Duty × Finset Duty :=
  settle (assign graph.intoNext) graph.order (graph.order.length * 12 + 1) graph.masksStart

def omittedNext (duty : Duty) (values : Text → Bool) (id : Text) : Bool :=
  graph.outgoing id ≠ [] && (graph.outgoing id).all fun edge =>
    match edge.target with
    | none => edge.omitting duty
    | some target => values target

def omittedOnEveryRoute (duty : Duty) : Text → Bool :=
  settle (assign (graph.omittedNext duty)) graph.order (graph.order.length + 1)
    fun id => id ∈ graph.order

/-- `reviewed` of what an edge leads to; the end is never so. -/
def reviewedBehind (values : Text → Bool) (edge : Edge) : Bool :=
  match edge.target with
  | none => false
  | some target => values target

def reviewedNext (values : Text → Bool) (id : Text) : Bool :=
  .review ∈ graph.gen id
    || (graph.outgoing id ≠ [] && (graph.outgoing id).all (reviewedBehind values))

/-- `reviewed`, of the steps. -/
def reviewed : Text → Bool :=
  settle (assign graph.reviewedNext) graph.order (graph.order.length + 1) fun _ => false

end Graph

/-! ## What is found -/

structure Endpoint where
  source : Text
  decision : Option Text
  route : Option Text
  guaranteed : List Duty
  missing : List Duty
  omits : List Omission
deriving DecidableEq

inductive FindingCode where
  | routeDropsResponsibility | omitUnnecessary | reviewPolicyOnly
  | implementWithoutPlan | verifyWithoutReview
deriving DecidableEq

structure Finding where
  code : FindingCode
  phase : Text
  decision : Option Text
  route : Option Text
deriving DecidableEq

structure Compiled where
  nodes : List Node
  edges : List Edge
  endpoints : List Endpoint
  findings : List Finding

section Compile

variable (graph : Graph)

def endpointOf (edge : Edge) : Endpoint :=
  let guaranteed := required.filter (· ∈ (graph.masks edge.source).2)
  { source := edge.source, decision := edge.decision, route := edge.route, guaranteed
    missing := required.filter fun duty => duty ∉ guaranteed && !edge.omitting duty
    omits := edge.omits }

/-- The edges to the end from steps that are reached. -/
def endEdges : List Edge :=
  graph.edges.filter fun edge => edge.target = none && edge.source ∈ graph.reachable

def endpointFindings (edge : Edge) : List Finding :=
  let endpoint := endpointOf graph edge
  let finding := fun code => Finding.mk code edge.source edge.decision edge.route
  (if endpoint.missing ≠ [] then [finding .routeDropsResponsibility] else [])
    ++ (if edge.omits.any fun omission => omission.responsibility ∈ endpoint.guaranteed then
          [finding .omitUnnecessary] else [])
    ++ (if .review ∉ endpoint.missing ∧ edge.omitting .review = false
            ∧ .humanReview ∉ (graph.masks edge.source).2 then
          [finding .reviewPolicyOnly] else [])

def implementsUnplanned (node : Node) : Bool :=
  node.id ∈ graph.reachable && .implement ∈ node.responsibilities
    && .plan ∉ (graph.masks node.id).1 && !graph.omittedOnEveryRoute .plan node.id

def verifiesUnreviewed (node : Node) : Bool :=
  node.id ∈ graph.reachable && .verify ∈ node.responsibilities && .review ∉ node.responsibilities
    && !graph.omittedOnEveryRoute .review node.id
    && !(graph.outgoing node.id).all (Graph.reviewedBehind graph.reviewed)

def nodeFindings (nodes : List Node) (code : FindingCode) (found : Node → Bool) : List Finding :=
  (nodes.filter found).map fun node => ⟨code, node.id, none, none⟩

end Compile

def compileObligationGraph (workType : WorkType) : Compiled :=
  if workType.phases = [] then ⟨[], [], [], []⟩
  else
    let nodes := nodesOf workType
    let graph := graphOf workType
    { nodes, edges := graph.edges
      endpoints := (endEdges graph).map (endpointOf graph)
      findings := (endEdges graph).flatMap (endpointFindings graph)
        ++ nodeFindings nodes .implementWithoutPlan (implementsUnplanned graph)
        ++ nodeFindings nodes .verifyWithoutReview (verifiesUnreviewed graph) }

end Evidence

end SingularityFlow
