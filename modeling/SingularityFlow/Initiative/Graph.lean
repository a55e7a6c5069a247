/-
# The justification graph of an Initiative

An edge leads from what something rests on to what rests on it: from an output
to its phase and to the outputs that consume it, from a check to its phase,
from evidence to its check, from a subject to its approvals, and between
contracts, child Stories and the phases that wait for them.  A node is written
`type:part/part`.

What a change reaches is the cone of the nodes it starts from.  Invalidating
it marks what is in it stale (`markNodeStale`) and takes the lifecycle back to
the first phase in it, unless that comes after the current one
(`rewindInvalidatedLifecycle`).
-/
import SingularityFlow.Initiative.Records
import SingularityFlow.Lib.Search

namespace SingularityFlow

open Ecma

namespace Initiatives

/-! ## Nodes -/

def initiativeNode (type : String) (parts : List Text) : Text :=
  js type ++ 0x3A :: joinWith [0x2F] parts

def phaseNode (phaseId : Text) : Text := initiativeNode "phase" [phaseId]

def outputNode (phaseId outputId : Text) : Text := initiativeNode "output" [phaseId, outputId]

def checkNode (phaseId checkId : Text) : Text := initiativeNode "check" [phaseId, checkId]

def storyNode (storyId : Text) : Text := initiativeNode "story" [storyId]

def approvalNode (sha256 : Text) : Text := initiativeNode "approval" [sha256]

/-- The output that a reference names. -/
def referenceNode (reference : Text) : Text :=
  outputNode (referencePhase reference) ((referenceOutput? reference).getD [])

/-- `node.split(':', 2)`; every node has a colon. -/
def nodeType (node : Text) : Text := node.takeWhile (· ≠ 0x3A)

def nodeReference (node : Text) : Text :=
  ((node.dropWhile (· ≠ 0x3A)).drop 1).takeWhile (· ≠ 0x3A)

/-! ## The graph -/

structure Graph where
  nodes : List Text
  edges : List (Text × Text)

def phaseEdges (phase : PhaseDefinition) : List (Text × Text) :=
  (phase.outputs.flatMap fun output =>
      (outputNode phase.id output.id, phaseNode phase.id)
        :: output.consumes.map fun reference =>
          (referenceNode reference, outputNode phase.id output.id))
    ++ phase.checklist.map fun check => (checkNode phase.id check.id, phaseNode phase.id)

def evidenceEdge (entry : Entry EvidenceRecord) : Text × Text :=
  (initiativeNode "evidence" [entry.sha256], checkNode entry.record.phase entry.record.check)

def subjectNode (record : ApprovalRecord) : Text :=
  match record.subject.type with
  | .phase => phaseNode record.phase
  | .output => outputNode record.phase record.subject.id
  | .check => checkNode record.phase record.subject.id
  | .pack => initiativeNode "pack" [record.phase, record.subject.id]

def approvalEdge (entry : Entry ApprovalRecord) : Text × Text :=
  (subjectNode entry.record, approvalNode entry.sha256)

def contractNode (contract : Contract) : Text :=
  initiativeNode "contract" [contract.id, contract.version]

def contractEdges (contract : Contract) : List (Text × Text) :=
  contract.consumers.map (fun storyId => (contractNode contract, storyNode storyId))
    ++ contract.producers.map fun storyId => (storyNode storyId, contractNode contract)

def storyEdges (milestones : List Text) (story : ChildStory) : List (Text × Text) :=
  story.dependsOn.map (fun dependency => (storyNode dependency, storyNode story.id))
    ++ if story.blocking then
        milestones.map fun phaseId => (storyNode story.id, phaseNode phaseId)
      else []

def phaseNodes (phase : PhaseDefinition) : List Text :=
  phaseNode phase.id :: (phase.outputs.map fun output => outputNode phase.id output.id)
    ++ phase.checklist.map fun check => checkNode phase.id check.id

def buildInitiativeGraph (initiative : Initiative) (evidence : List (Entry EvidenceRecord))
    (approvals : List (Entry ApprovalRecord)) : Graph :=
  let edges := initiative.resolution.phases.flatMap phaseEdges
    ++ evidence.map evidenceEdge
    ++ approvals.map approvalEdge
    ++ initiative.contracts.flatMap contractEdges
    ++ initiative.childStories.flatMap (storyEdges (milestonePhases initiative))
  { nodes := initiative.resolution.phases.flatMap phaseNodes
      ++ initiative.contracts.map contractNode
      ++ (initiative.childStories.map fun story => storyNode story.id)
      ++ edges.flatMap fun edge => [edge.1, edge.2]
    edges }

/-- `Boolean(graph.nodes[node])`. -/
def Graph.has (graph : Graph) (node : Text) : Bool :=
  node ∈ graph.nodes || node ∈ inheritedNames

def downstreamCone (graph : Graph) (starts : List Text) : List Text :=
  (search graph.edges (fun visited node => node ∉ visited) (distinct starts)).insertionSort LeUnits

/-- **The cone is what can be reached from where it starts.** -/
theorem mem_downstreamCone_iff {graph : Graph} {starts : List Text} {node : Text} :
    node ∈ downstreamCone graph starts ↔ ∃ start ∈ starts, Reaches graph.edges start node := by
  rw [downstreamCone, List.mem_insertionSort, mem_search_iff]
  · simp only [mem_distinct]
  · intro visited a h
    simpa using h

/-! ## Marking -/

def markOutputStale (phaseId outputId : Text) (phase : Phase) : Phase :=
  if phase.id = phaseId then
    { phase with outputs := phase.outputs.map fun output =>
        if output.id = outputId then { output with status := .stale } else output }
  else phase

def markPhaseStale (phaseId : Text) (phase : Phase) : Phase :=
  if phase.id = phaseId ∧ phase.status = .approved then { phase with status := .stale } else phase

@[simp] theorem markOutputStale_id (phaseId outputId : Text) (phase : Phase) :
    (markOutputStale phaseId outputId phase).id = phase.id := by
  unfold markOutputStale
  split <;> rfl

@[simp] theorem markOutputStale_status (phaseId outputId : Text) (phase : Phase) :
    (markOutputStale phaseId outputId phase).status = phase.status := by
  unfold markOutputStale
  split <;> rfl

@[simp] theorem markOutputStale_hashes (phaseId outputId : Text) (phase : Phase) :
    (markOutputStale phaseId outputId phase).hashes = phase.hashes := by
  unfold markOutputStale
  split
  · simp only [Phase.hashes, List.map_map]
    refine List.map_congr_left fun output _ => ?_
    simp only [Function.comp_apply]
    split <;> rfl
  · rfl

@[simp] theorem markPhaseStale_hashes (phaseId : Text) (phase : Phase) :
    (markPhaseStale phaseId phase).hashes = phase.hashes := by
  unfold markPhaseStale
  split <;> rfl

@[simp] theorem markPhaseStale_id (phaseId : Text) (phase : Phase) :
    (markPhaseStale phaseId phase).id = phase.id := by
  unfold markPhaseStale
  split <;> rfl

def markNodeStale (initiative : Initiative) (node : Text) : Initiative :=
  let reference := nodeReference node
  if nodeType node = js "output" then
    initiative.mapPhases (markOutputStale (referencePhase reference) (referenceOutput reference))
      (markOutputStale_id _ _)
  else if nodeType node = js "phase" then
    initiative.mapPhases (markPhaseStale (referencePhase reference)) (markPhaseStale_id _)
  else if nodeType node = js "story" then
    { initiative with childStories := initiative.childStories.map fun story =>
        if story.id = referencePhase reference then { story with stale := true } else story }
  else if nodeType node = js "contract" then
    { initiative with contracts := initiative.contracts.map fun contract =>
        if contract.id = referencePhase reference ∧ contract.version = referenceOutput reference then
          { contract with status := js "stale" }
        else contract }
  else initiative

/-! ## Rewinding -/

/-- The phase that a node belongs to, for the kinds of nodes that take the
lifecycle back. -/
def nodePhase? (node : Text) : Option Text :=
  if nodeType node ∈ [js "phase", js "output", js "check"] then
    some (referencePhase (nodeReference node))
  else none

def affectedPhaseIds (initiative : Initiative) (affected : List Text) : List Text :=
  affected.filterMap fun node =>
    (nodePhase? node).filter fun phaseId => (initiative.phase? phaseId).isSome

/-- What the rewind makes of a phase after the one it reopens. -/
def reset (affectedPhases : List Text) (phase : Phase) : Phase :=
  if phase.status ≠ .approved ∨ phase.id ∈ affectedPhases then { phase with status := .notStarted }
  else phase

/-- The phases from the first affected one on, rewritten. -/
def rewindPhases (affectedPhases : List Text) : List Phase → List Phase
  | [] => []
  | phase :: rest =>
      if phase.id ∈ affectedPhases then
        { phase with status := .inProgress } :: rest.map (reset affectedPhases)
      else phase :: rewindPhases affectedPhases rest

@[simp] theorem reset_id (affectedPhases : List Text) (phase : Phase) :
    (reset affectedPhases phase).id = phase.id := by
  unfold reset
  split <;> rfl

@[simp] theorem reset_hashes (affectedPhases : List Text) (phase : Phase) :
    (reset affectedPhases phase).hashes = phase.hashes := by
  unfold reset
  split <;> rfl

theorem map_id_rewindPhases (affectedPhases : List Text) (phases : List Phase) :
    (rewindPhases affectedPhases phases).map Phase.id = phases.map Phase.id := by
  induction phases with
  | nil => rfl
  | cons phase rest ih =>
      rw [rewindPhases]
      split
      · simp
      · rw [List.map_cons, List.map_cons, ih]

def currentIndex (initiative : Initiative) : Nat :=
  match initiative.currentPhase with
  | none => initiative.phases.length
  | some id => initiative.phases.findIdx (·.id = id)

/-- The phase that is reopened, if one is: the first one affected, when it is
not after the current one. -/
def reopenedPhase? (initiative : Initiative) (affectedPhases : List Text) : Option Text :=
  match initiative.phases.findIdx? (·.id ∈ affectedPhases) with
  | none => none
  | some earliest =>
      if currentIndex initiative < earliest then none
      else (initiative.phases[earliest]?).map Phase.id

def rewindInvalidatedLifecycle (initiative : Initiative) (affected : List Text) : Initiative :=
  let affectedPhases := affectedPhaseIds initiative affected
  match reopenedPhase? initiative affectedPhases with
  | none => initiative
  | some reopenedId =>
      { initiative with
        phases := rewindPhases affectedPhases initiative.phases
        currentPhase := some reopenedId
        status := .inProgress
        phaseOrder_eq := by
          rw [map_id_rewindPhases]
          exact initiative.phaseOrder_eq }

/-- What an invalidation makes of the state: what is affected is marked, and
the lifecycle goes back. -/
def invalidated (initiative : Initiative) (affected : List Text) : Initiative :=
  rewindInvalidatedLifecycle (affected.foldl markNodeStale initiative) affected

end Initiatives

end SingularityFlow
