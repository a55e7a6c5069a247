/-
# What a refused transition leaves behind

The transitions of `lifecycle-transitions.mjs` write to the stored workflow while
they still check it.  Here a stored workflow may be malformed wherever they look:
its order may repeat a phase or name one that is missing, a phase may be stored
under another's id, decisions may be no list, amendments may lack their fields.
A transition is a computation that writes and may throw, and that keeps what it
wrote when it throws.

Rework checks first and writes afterwards, so a refusal leaves nothing behind.
An advance drops the pending question and marks the skipped phases before it
checks the order; `atomic_iff` says exactly when that shows.
-/
import SingularityFlow.Lib.Json
import SingularityFlow.Story.Lifecycle

namespace SingularityFlow

open Ecma Approval

namespace Story

namespace Stored

/-! ## Stored workflows -/

/-- A phase as it is stored; a decision that is no object is `none`. -/
structure Phase where
  id : Option Text
  status : PhaseStatus
  generation : Nat
  approvals : Option (List (Option ApprovalRecord))
  decisionInputs : Option DecisionInputs
  reworkRevalidation : Option Revalidation
  retention : Option Nat
  startedAt : Option Text
  submittedAt : Option Text
  approvedAt : Option Text
  approvedBy : Option Value
  submissionArchitectureDecision : Option Value
  skippedAt : Option Text
  skippedBy : Option (Text × Option Text)
  rejectedAt : Option Text
  rejectedBy : Option Value
  rejectionReason : Option Text
  approvalDisposition : Option Text
  approvalWaiver : Option Value

/-- An amendment, whose lists may be missing. -/
structure SkillAmendment where
  approved : Bool
  affectedPhaseIds : Option (List Text)
  preservedPhaseIds : Option (List Text)

structure Workflow where
  phaseOrder : Option (List Text)
  phases : Option (List (Text × Phase))
  skillVersionAmendments : List (Option SkillAmendment)
  pendingDecision : Option PendingDecision
  currentPhase : Option Text
  status : StoryStatus
  completion : Option Value

/-- `workflow.phases?.[id]` -/
def Workflow.phase (workflow : Workflow) (id : Text) : Option Phase :=
  workflow.phases.bind fun phases => (phases.find? (·.1 = id)).map Prod.snd

/-- Write to the phase that is stored under the id. -/
def Workflow.update (workflow : Workflow) (id : Text) (f : Phase → Phase) : Workflow :=
  { workflow with
    phases := workflow.phases.map fun phases =>
      phases.map fun entry => if entry.1 = id then (entry.1, f entry.2) else entry }

/-- The id of the phase that is stored under the key. -/
def Workflow.idOf (workflow : Workflow) (key : Text) : Option Text :=
  (workflow.phase key).bind Phase.id

/-- A computation that writes to the workflow, and keeps what it wrote when it throws. -/
abbrev Transition := EStateM Failure Workflow

def ofExcept {α : Type} : Except Failure α → Transition α
  | .ok a => pure a
  | .error e => throw e

/-! ## The phase that follows -/

def phaseIndex (workflow : Workflow) (phaseId : Text) : Except Failure Nat :=
  let refused := transitionInvalid (js "Lifecycle transition requires an existing selected phase.")
  match workflow.phaseOrder with
  | none => .error refused
  | some order =>
      if phaseId ∈ order ∧ order.Nodup ∧ ∀ id ∈ order, workflow.idOf id = some id then
        .ok (order.idxOf phaseId)
      else .error refused

/-- `undefined` has no members. -/
def noMember (name : String) : Failure :=
  .typeError (js "Cannot read properties of undefined (reading '" ++ js name ++ js "')")

/-- The search for the amendment, over the amendments from the last on. -/
def affecting (phaseId : Text) :
    List (Option SkillAmendment) → Except Failure (Option SkillAmendment)
  | [] => .ok none
  | none :: _ => .error (noMember "status")
  | some entry :: rest =>
      if entry.approved then
        match entry.affectedPhaseIds with
        | none => .error (noMember "includes")
        | some ids => if phaseId ∈ ids then .ok (some entry) else affecting phaseId rest
      else affecting phaseId rest

/-- The loop over the phases behind the completed one. -/
def firstOpen (workflow : Workflow) (amendment : Option SkillAmendment) :
    List Text → Except Failure (Option Text)
  | [] => .ok none
  | id :: rest =>
      match workflow.phase id with
      | none => .error (noMember "id")
      | some candidate =>
          match amendment.map SkillAmendment.preservedPhaseIds with
          | some none => .error (noMember "includes")
          | preserved =>
              if candidate.status = .approved ∧ ((preserved.bind fun ids => ids).any (id ∈ ·) = true
                  ∨ candidate.retention = some candidate.generation) then
                firstOpen workflow amendment rest
              else .ok (some id)

def nextPhaseAfterSkillAmendment (workflow : Workflow) (phaseId : Text) :
    Except Failure (Option Text) := do
  let start ← phaseIndex workflow phaseId
  let amendment ← affecting phaseId workflow.skillVersionAmendments.reverse
  firstOpen workflow amendment ((workflow.phaseOrder.getD []).drop (start + 1))

/-! ## Advancing -/

/-- `delete workflow.pendingDecision` -/
def dropQuestion (workflow : Workflow) : Workflow := { workflow with pendingDecision := none }

/-- A stored phase, marked as skipped if it has not started and is one of those passed over. -/
def skipEntry (phaseIds : List Text) (now : Text) (outcome : Outcome) (entry : Text × Phase) :
    Text × Phase :=
  if entry.1 ∈ phaseIds ∧ entry.2.status = .notStarted then
    (entry.1, { entry.2 with
      status := .skipped
      skippedAt := some now
      skippedBy := some (outcome.decision, outcome.route) })
  else entry

/-- Only phases that have not started are skipped. -/
def skipPhaseRange (workflow : Workflow) (phaseIds : List Text) (now : Text) (outcome : Outcome) :
    Workflow :=
  { workflow with phases := workflow.phases.map (List.map (skipEntry phaseIds now outcome)) }

/-- `target.status = 'in_progress'; target.startedAt = at; workflow.currentPhase = target.id` -/
def start (workflow : Workflow) (key : Text) (now : Text) : Workflow :=
  { workflow.update key fun phase => { phase with status := .inProgress, startedAt := some now } with
    currentPhase := workflow.idOf key }

def close (workflow : Workflow) : Workflow :=
  { workflow with currentPhase := none, status := .closed }

/-- What follows where no decision says otherwise. -/
def advanceLinearly (phaseId now : Text) : Transition (Option Text) := do
  let workflow ← get
  let upcoming ← ofExcept (nextPhaseAfterSkillAmendment workflow phaseId)
  match upcoming with
  | some key => modify (start · key now)
  | none => modify close
  return upcoming

/-- The later phase that a decision skips ahead to. -/
def forwardTarget (workflow : Workflow) (phaseId : Text) (outcome : Outcome) :
    Except Failure Text :=
  let refused := transitionInvalid (js "A decision may only skip ahead to a later phase.")
  match workflow.phases, outcome.target with
  | none, _ => .error (noMember "target")
  | some _, none => .error refused
  | some _, some key =>
      match workflow.phase key, workflow.phaseOrder with
      | none, _ => .error refused
      | some _, none => .error (noMember "indexOf")
      | some _, some order => do
          let index ← phaseIndex workflow phaseId
          -- `indexOf` is -1 for a phase that the order does not name
          failIf (¬ ∃ id ∈ order, workflow.idOf key = some id ∧ index < order.idxOf id) refused
          return key

/-- `phaseId` is the id of the completed phase; of the phase nothing else is read. -/
def advanceCompletedPhase (phaseId now : Text) (outcome : Option Outcome)
    (pending : Option PendingDecision) : Transition (Option Text) :=
  match outcome with
  | none => do
      modify dropQuestion
      advanceLinearly phaseId now
  | some outcome =>
      match outcome.kind with
      | .loop => throw (transitionInvalid
          (js "A decision that goes back is applied as rework, not as an advance."))
      | .pause _ =>
          match pending with
          | none => throw (transitionInvalid (js "A paused decision needs its pending record."))
          | some question => do
              modify ({ · with
                pendingDecision := some question
                currentPhase := some phaseId
                status := .inProgress })
              return none
      | .forward => do
          modify dropQuestion
          modify (skipPhaseRange · outcome.skipped now outcome)
          let workflow ← get
          let key ← ofExcept (forwardTarget workflow phaseId outcome)
          modify (start · key now)
          return some key
      | .end => do
          modify dropQuestion
          modify (skipPhaseRange · outcome.skipped now outcome)
          modify close
          return none
      | .next | .unknown => do
          modify dropQuestion
          advanceLinearly phaseId now

/-! ## Rework -/

/-- The members that rework adds to a decision it invalidates. -/
abbrev Invalidation := ApprovalRecord → ApprovalRecord

/-- The loop over the decisions of a phase: what it wrote, and what stopped it. -/
def invalidateApprovals (now : Text) (invalidation : Invalidation) :
    List (Option ApprovalRecord) → List (Option ApprovalRecord) × Option Failure
  | [] => ([], none)
  | none :: rest => (none :: rest, some (.typeError
      (js "Cannot read properties of null (reading 'invalidatedAt')")))
  | some approval :: rest =>
      let written :=
        if approval.invalidatedAt.getD [] = [] then
          invalidation { approval with invalidatedAt := some now }
        else approval
      let (rest, stopped) := invalidateApprovals now invalidation rest
      (some written :: rest, stopped)

/-- The fields that rework clears. -/
def clear (phase : Phase) (now : Text) (status : PhaseStatus) (retainable : Bool) : Phase :=
  { phase with
    status
    submittedAt := none
    approvedAt := none
    approvedBy := none
    submissionArchitectureDecision := none
    reworkRevalidation :=
      some ⟨phase.generation, now, retainable && phase.status = .approved⟩
    retention := none
    skippedAt := none
    skippedBy := none
    decisionInputs := none
    approvalDisposition := none
    approvalWaiver := none }

def resetPhaseForRework (id now : Text) (status : PhaseStatus) (invalidation : Invalidation)
    (retainable : Bool) : Transition Unit := do
  let workflow ← get
  match workflow.phase id with
  | none => throw (noMember "status")
  | some phase =>
      let (approvals, stopped) := invalidateApprovals now invalidation (phase.approvals.getD [])
      modify (·.update id fun phase => { phase with approvals := phase.approvals.map fun _ => approvals })
      match stopped with
      | some e => throw e
      | none => modify (·.update id (clear · now status retainable))

/-- The loop over the phases from the target on. -/
def resetPhases (now : Text) (invalidation : Invalidation) (retain : Bool) :
    List (Text × Nat) → Transition Unit
  | [] => pure ()
  | (id, index) :: rest => do
      resetPhaseForRework id now (if index = 0 then .inProgress else .notStarted) invalidation
        (retain && 0 < index)
      resetPhases now invalidation retain rest

/-- A phase with a list of decisions, each of them an object. -/
def Phase.wellFormed (phase : Phase) : Bool :=
  phase.approvals.any fun approvals => approvals.all Option.isSome

def resetPhaseRangeForRework (targetId now : Text) (invalidation : Invalidation) (retain : Bool) :
    Transition (List Text) := do
  let workflow ← get
  let targetIndex ← ofExcept (phaseIndex workflow targetId)
  let affectedIds := (workflow.phaseOrder.getD []).drop targetIndex
  if affectedIds.any (fun id => !(workflow.phase id).any Phase.wellFormed) then
    throw (transitionInvalid (js "Lifecycle rework requires an existing decision collection."))
  resetPhases now invalidation retain affectedIds.zipIdx
  modify fun workflow => { workflow with
    pendingDecision := workflow.pendingDecision.filter fun pending => pending.after ∉ affectedIds
    completion := none
    currentPhase := some targetId
    status := .inProgress }
  return affectedIds

def reopenPhaseRange (targetId now : Text) (actor : Value) (reason : Text) (retain : Bool) :
    Transition (List Text) := do
  let affectedIds ← resetPhaseRangeForRework targetId now id retain
  modify (·.update targetId fun phase => { phase with
    rejectedAt := some now
    rejectedBy := some actor
    rejectionReason := some reason })
  return affectedIds

/-! ## Atomicity -/

/-- A call of one of the transitions. -/
inductive Call where
  | advance (phaseId now : Text) (outcome : Option Outcome) (pending : Option PendingDecision)
  | reset (targetId now : Text) (invalidation : Invalidation) (retain : Bool)
  | reopen (targetId now : Text) (actor : Value) (reason : Text) (retain : Bool)

def Call.run : Call → Transition Unit
  | .advance phaseId now outcome pending => do
      let _ ← advanceCompletedPhase phaseId now outcome pending
  | .reset targetId now invalidation retain => do
      let _ ← resetPhaseRangeForRework targetId now invalidation retain
  | .reopen targetId now actor reason retain => do
      let _ ← reopenPhaseRange targetId now actor reason retain

/-- When the transition throws, the workflow is as it was. -/
def Atomic {α : Type} (transition : Transition α) (workflow : Workflow) : Prop :=
  ∀ failure left, transition workflow = .error failure left → left = workflow

/-- No question is pending. -/
def Workflow.Unasked (workflow : Workflow) : Prop := workflow.pendingDecision = none

/-- None of the phases is there and has not started. -/
def Workflow.Started (workflow : Workflow) (phaseIds : List Text) : Prop :=
  ∀ phases, workflow.phases = some phases →
    ∀ entry ∈ phases, entry.1 ∈ phaseIds → entry.2.status ≠ .notStarted

/-- The order is sound and names the phase. -/
def Workflow.Selects (workflow : Workflow) (phaseId : Text) : Prop :=
  ∃ order, workflow.phaseOrder = some order ∧ phaseId ∈ order ∧ order.Nodup ∧
    ∀ id ∈ order, workflow.idOf id = some id

/-- The amendments that are looked at, from the last on, have the lists that
are read of them. -/
def Workflow.AmendmentsReadable (workflow : Workflow) (phaseId : Text) : Prop :=
  ∃ found, affecting phaseId workflow.skillVersionAmendments.reverse = .ok found ∧
    ∀ amendment, found = some amendment → amendment.preservedPhaseIds = none →
      ∀ order, workflow.phaseOrder = some order → order.getLast? = some phaseId

/-- The target of a decision is a phase behind the completed one. -/
def Workflow.LeadsAhead (workflow : Workflow) (phaseId : Text) (outcome : Outcome) : Prop :=
  workflow.Selects phaseId ∧
    ∃ key id, outcome.target = some key ∧ workflow.idOf key = some id ∧
      ∀ order, workflow.phaseOrder = some order → id ∈ order ∧ order.idxOf phaseId < order.idxOf id

/-- The linear path goes through, or there is no question to drop. -/
def Workflow.LinearSafe (workflow : Workflow) (phaseId : Text) : Prop :=
  (workflow.Selects phaseId ∧ workflow.AmendmentsReadable phaseId) ∨ workflow.Unasked

/-- When a call is atomic. -/
def Call.Safe (workflow : Workflow) : Call → Prop
  | .advance phaseId _ none _ => workflow.LinearSafe phaseId
  | .advance phaseId _ (some outcome) _ =>
      match outcome.kind with
      | .loop | .pause _ | .end => True
      | .forward => workflow.LeadsAhead phaseId outcome ∨
          (workflow.Unasked ∧ workflow.Started outcome.skipped)
      | .next | .unknown => workflow.LinearSafe phaseId
  | .reset .. | .reopen .. => True

/-! ## What the checks ask -/

section Checks

variable {workflow : Workflow} {phaseId : Text}

theorem phaseIndex_ok_iff {index : Nat} : phaseIndex workflow phaseId = .ok index ↔
    ∃ order, workflow.phaseOrder = some order ∧ phaseId ∈ order ∧ order.Nodup ∧
      (∀ id ∈ order, workflow.idOf id = some id) ∧ index = order.idxOf phaseId := by
  unfold phaseIndex
  cases workflow.phaseOrder with
  | none => simp
  | some order =>
      simp only [Option.some.injEq, exists_eq_left']
      split
      · next h =>
        rw [Except.ok.injEq, eq_comm]
        exact ⟨fun hindex => ⟨h.1, h.2.1, h.2.2, hindex⟩, fun h => h.2.2.2⟩
      · next h =>
        refine ⟨nofun, ?_⟩
        rintro ⟨hmem, hnodup, hids, -⟩
        exact absurd ⟨hmem, hnodup, hids⟩ h

theorem selects_iff : workflow.Selects phaseId ↔ ∃ index, phaseIndex workflow phaseId = .ok index := by
  constructor
  · rintro ⟨order, horder, hmem, hnodup, hids⟩
    exact ⟨_, phaseIndex_ok_iff.mpr ⟨order, horder, hmem, hnodup, hids, rfl⟩⟩
  · rintro ⟨index, hindex⟩
    obtain ⟨order, horder, hmem, hnodup, hids, -⟩ := phaseIndex_ok_iff.mp hindex
    exact ⟨order, horder, hmem, hnodup, hids⟩

/-- The loop over later phases stops only at an amendment without the list it reads. -/
theorem firstOpen_ok_iff {amendment : Option SkillAmendment} {ids : List Text}
    (hids : ∀ id ∈ ids, workflow.idOf id = some id) :
    (∃ next, firstOpen workflow amendment ids = .ok next) ↔
      ∀ entry, amendment = some entry → entry.preservedPhaseIds = none → ids = [] := by
  induction ids with
  | nil => exact ⟨fun _ _ _ _ => rfl, fun _ => ⟨none, rfl⟩⟩
  | cons id ids ih =>
      obtain ⟨hid, hids⟩ := List.forall_mem_cons.mp hids
      obtain ⟨phase, hphase, -⟩ := Option.bind_eq_some_iff.mp hid
      rw [firstOpen, hphase]
      dsimp only
      split
      · next hnone =>
        obtain ⟨entry, rfl, hentry⟩ := Option.map_eq_some_iff.mp hnone
        refine ⟨nofun, fun h => ?_⟩
        exact absurd (h entry rfl hentry) (List.cons_ne_nil _ _)
      · next hsome =>
        have hread : ∀ entry, amendment = some entry → entry.preservedPhaseIds ≠ none := by
          rintro entry rfl hentry
          exact hsome (congrArg some hentry)
        split
        · rw [ih hids]
          exact ⟨fun _ entry hentry hnone => absurd hnone (hread entry hentry),
            fun _ entry hentry hnone => absurd hnone (hread entry hentry)⟩
        · exact ⟨fun _ entry hentry hnone => absurd hnone (hread entry hentry),
            fun _ => ⟨_, rfl⟩⟩

/-- Nothing is behind a phase of an order without repetitions exactly when it is the last. -/
theorem drop_idxOf_eq_nil_iff {order : List Text} (hmem : phaseId ∈ order) (hnodup : order.Nodup) :
    order.drop (order.idxOf phaseId + 1) = [] ↔ order.getLast? = some phaseId := by
  rw [List.drop_eq_nil_iff]
  constructor
  · intro hlength
    have hindex : order.length - 1 = order.idxOf phaseId := by
      have := List.idxOf_lt_length_of_mem hmem
      omega
    rw [List.getLast?_eq_getElem?, hindex, List.getElem?_idxOf hmem]
  · intro hlast
    obtain ⟨front, rfl⟩ := List.getLast?_eq_some_iff.mp hlast
    have hnew : phaseId ∉ front := fun h =>
      List.disjoint_of_nodup_append hnodup h List.mem_cons_self
    rw [List.idxOf_append_of_notMem hnew, List.idxOf_cons_self, List.length_append]
    simp

/-- The linear path goes through for a phase that is selected, when the
amendments can be read. -/
theorem nextPhase_ok_iff :
    (∃ next, nextPhaseAfterSkillAmendment workflow phaseId = .ok next) ↔
      workflow.Selects phaseId ∧ workflow.AmendmentsReadable phaseId := by
  unfold nextPhaseAfterSkillAmendment
  constructor
  · rintro ⟨next, h⟩
    obtain ⟨index, hindex, h⟩ := bind_eq_ok_iff.mp h
    obtain ⟨found, hfound, h⟩ := bind_eq_ok_iff.mp h
    obtain ⟨order, horder, hmem, hnodup, hids, rfl⟩ := phaseIndex_ok_iff.mp hindex
    refine ⟨⟨order, horder, hmem, hnodup, hids⟩, found, hfound, ?_⟩
    intro amendment hamendment hnone order' horder'
    obtain rfl := Option.some.inj (horder.symm.trans horder')
    rw [horder, Option.getD_some] at h
    have hend := (firstOpen_ok_iff fun id hid => hids id (List.mem_of_mem_drop hid)).mp ⟨next, h⟩
    exact (drop_idxOf_eq_nil_iff hmem hnodup).mp (hend amendment hamendment hnone)
  · rintro ⟨⟨order, horder, hmem, hnodup, hids⟩, found, hfound, hlast⟩
    have hbehind : ∀ id ∈ order.drop (order.idxOf phaseId + 1), workflow.idOf id = some id :=
      fun id hid => hids id (List.mem_of_mem_drop hid)
    obtain ⟨next, hnext⟩ := (firstOpen_ok_iff hbehind).mpr fun amendment hamendment hnone =>
      (drop_idxOf_eq_nil_iff hmem hnodup).mpr (hlast amendment hamendment hnone order horder)
    refine ⟨next, bind_eq_ok_iff.mpr ⟨_, phaseIndex_ok_iff.mpr
      ⟨order, horder, hmem, hnodup, hids, rfl⟩, bind_eq_ok_iff.mpr ⟨found, hfound, ?_⟩⟩⟩
    rw [horder, Option.getD_some]
    exact hnext

/-- A decision leads ahead exactly when its target is found. -/
theorem forwardTarget_ok_iff {outcome : Outcome} :
    (∃ key, forwardTarget workflow phaseId outcome = .ok key) ↔
      workflow.LeadsAhead phaseId outcome := by
  unfold forwardTarget
  constructor
  · rintro ⟨key, h⟩
    dsimp only at h
    split at h
    · cases h
    · cases h
    · next key' _ htarget =>
      split at h
      · cases h
      · cases h
      · next order _ horder =>
        obtain ⟨index, hindex, h⟩ := bind_eq_ok_iff.mp h
        obtain ⟨_, hahead, -⟩ := bind_eq_ok_iff.mp h
        rw [failIf_eq_ok_iff, not_not] at hahead
        obtain ⟨id, hmem, hid, hlt⟩ := hahead
        refine ⟨selects_iff.mpr ⟨index, hindex⟩, key', id, htarget, hid, fun order' horder' => ?_⟩
        obtain rfl := Option.some.inj (horder.symm.trans horder')
        obtain ⟨order', horder', -, -, -, rfl⟩ := phaseIndex_ok_iff.mp hindex
        obtain rfl := Option.some.inj (horder.symm.trans horder')
        exact ⟨hmem, hlt⟩
  · rintro ⟨⟨order, horder, hmem, hnodup, hids⟩, key, id, htarget, hid, hahead⟩
    obtain ⟨phase, hphase, -⟩ := Option.bind_eq_some_iff.mp hid
    obtain ⟨phases, hphases, -⟩ := Option.bind_eq_some_iff.mp hphase
    obtain ⟨hin, hlt⟩ := hahead order horder
    have hindex := phaseIndex_ok_iff.mpr ⟨order, horder, hmem, hnodup, hids, rfl⟩
    rw [hphases, htarget]
    dsimp only
    rw [hphase, horder]
    exact ⟨key, bind_eq_ok_iff.mpr ⟨_, hindex, bind_eq_ok_iff.mpr
      ⟨(), failIf_eq_ok_iff.mpr (not_not.mpr ⟨id, hin, hid, hlt⟩), rfl⟩⟩⟩

end Checks

/-! ## What an advance writes before it checks -/

section Written

variable {workflow : Workflow} {phaseIds : List Text} {now : Text} {outcome : Outcome}

theorem dropQuestion_eq_iff : dropQuestion workflow = workflow ↔ workflow.Unasked := by
  constructor
  · exact fun h => (congrArg Workflow.pendingDecision h).symm
  · intro h
    cases workflow
    cases h
    rfl

theorem skipEntry_key (entry : Text × Phase) : (skipEntry phaseIds now outcome entry).1 = entry.1 := by
  unfold skipEntry
  split <;> rfl

theorem skipEntry_id (entry : Text × Phase) :
    (skipEntry phaseIds now outcome entry).2.id = entry.2.id := by
  unfold skipEntry
  split <;> rfl

theorem skipEntry_eq_iff {entry : Text × Phase} : skipEntry phaseIds now outcome entry = entry ↔
    (entry.1 ∈ phaseIds → entry.2.status ≠ .notStarted) := by
  unfold skipEntry
  split
  · next h =>
    refine ⟨fun heq => ?_, fun hstarted => absurd h.2 (hstarted h.1)⟩
    have hstatus : PhaseStatus.skipped = entry.2.status := congrArg (·.2.status) heq
    rw [h.2] at hstatus
    cases hstatus
  · next h => exact ⟨fun _ hmem hstatus => h ⟨hmem, hstatus⟩, fun _ => rfl⟩

/-- Skipping leaves the ids of the phases. -/
theorem idOf_skip (key : Text) :
    (skipPhaseRange workflow phaseIds now outcome).idOf key = workflow.idOf key := by
  unfold Workflow.idOf Workflow.phase skipPhaseRange
  cases workflow.phases with
  | none => rfl
  | some phases =>
      have hfind : (phases.map (skipEntry phaseIds now outcome)).find? (·.1 = key)
          = (phases.find? (·.1 = key)).map (skipEntry phaseIds now outcome) := by
        rw [List.find?_map]
        congr 2
        funext entry
        exact congrArg (fun name => decide (name = key)) (skipEntry_key entry)
      simp only [Option.map_some, Option.bind_some, hfind]
      cases phases.find? (·.1 = key) with
      | none => rfl
      | some entry => exact skipEntry_id entry

theorem skip_eq_iff : skipPhaseRange (dropQuestion workflow) phaseIds now outcome = workflow ↔
    workflow.Unasked ∧ workflow.Started phaseIds := by
  constructor
  · intro h
    refine ⟨(congrArg Workflow.pendingDecision h).symm, fun phases hphases entry hentry => ?_⟩
    have hmap : (workflow.phases).map (List.map (skipEntry phaseIds now outcome)) = workflow.phases :=
      congrArg Workflow.phases h
    rw [hphases, Option.map_some] at hmap
    have hsame := List.map_inj_left.mp ((Option.some.inj hmap).trans (List.map_id phases).symm)
    exact skipEntry_eq_iff.mp (hsame entry hentry)
  · rintro ⟨hunasked, hstarted⟩
    rw [dropQuestion_eq_iff.mpr hunasked, skipPhaseRange]
    have hphases : workflow.phases.map (List.map (skipEntry phaseIds now outcome))
        = workflow.phases := by
      cases hphases : workflow.phases with
      | none => rfl
      | some phases =>
          refine congrArg some ((List.map_congr_left fun entry hentry => ?_).trans (List.map_id phases))
          exact skipEntry_eq_iff.mpr (hstarted phases hphases entry hentry)
    rw [hphases]

/-- A decision leads ahead in what was written as in the workflow. -/
theorem leadsAhead_skip {phaseId : Text} :
    (skipPhaseRange (dropQuestion workflow) phaseIds now outcome).LeadsAhead phaseId outcome ↔
      workflow.LeadsAhead phaseId outcome := by
  unfold Workflow.LeadsAhead Workflow.Selects
  simp only [idOf_skip]
  rfl

end Written

/-! ## Advances -/

section Advance

variable {workflow : Workflow} {phaseId now : Text}

theorem atomic_of_ok {α : Type} {transition : Transition α} {result : α} {left : Workflow}
    (h : transition workflow = .ok result left) : Atomic transition workflow := by
  intro failure left' herror
  rw [h] at herror
  cases herror

theorem atomic_iff_of_error {α : Type} {transition : Transition α} {failure : Failure}
    {left : Workflow} (h : transition workflow = .error failure left) :
    Atomic transition workflow ↔ left = workflow := by
  constructor
  · exact fun hatomic => hatomic failure left h
  · rintro hleft failure' left' herror
    obtain ⟨-, rfl⟩ := EStateM.Result.error.inj (h.symm.trans herror)
    exact hleft

theorem atomic_discard {α : Type} {transition : Transition α} :
    Atomic (do let _ ← transition) workflow ↔ Atomic transition workflow := by
  cases h : transition workflow with
  | ok result left =>
      have hdiscard : (do let _ ← transition : Transition Unit) workflow = .ok () left := by
        change EStateM.bind transition (fun _ => pure ()) workflow = _
        rw [EStateM.bind, h]
        rfl
      exact iff_of_true (atomic_of_ok hdiscard) (atomic_of_ok h)
  | error failure left =>
      have hdiscard : (do let _ ← transition : Transition Unit) workflow = .error failure left := by
        change EStateM.bind transition (fun _ => pure ()) workflow = _
        rw [EStateM.bind, h]
      rw [atomic_iff_of_error h, atomic_iff_of_error hdiscard]

/-- What the linear path does, behind the question that was dropped. -/
theorem advanceLinearly_eq : advanceLinearly phaseId now workflow =
    match nextPhaseAfterSkillAmendment workflow phaseId with
    | .ok (some key) => .ok (some key) (start workflow key now)
    | .ok none => .ok none (close workflow)
    | .error failure => .error failure workflow := by
  change EStateM.bind (ofExcept (nextPhaseAfterSkillAmendment workflow phaseId)) _ workflow = _
  cases nextPhaseAfterSkillAmendment workflow phaseId with
  | ok upcoming => cases upcoming <;> rfl
  | error failure => rfl

/-- On the linear path an advance throws where the path breaks off, and then it
has dropped the question. -/
theorem atomic_linear_iff :
    Atomic (do
      modify dropQuestion
      advanceLinearly phaseId now) workflow ↔ workflow.LinearSafe phaseId := by
  have hnext : (∃ next, nextPhaseAfterSkillAmendment (dropQuestion workflow) phaseId = .ok next) ↔
      workflow.Selects phaseId ∧ workflow.AmendmentsReadable phaseId := nextPhase_ok_iff
  have hrun : (do
      modify dropQuestion
      advanceLinearly phaseId now : Transition (Option Text)) workflow
        = advanceLinearly phaseId now (dropQuestion workflow) := rfl
  rw [advanceLinearly_eq] at hrun
  cases hpath : nextPhaseAfterSkillAmendment (dropQuestion workflow) phaseId with
  | ok upcoming =>
      rw [hpath] at hrun
      refine iff_of_true ?_ (.inl (hnext.mp ⟨upcoming, hpath⟩))
      cases upcoming with
      | none => exact atomic_of_ok hrun
      | some key => exact atomic_of_ok hrun
  | error failure =>
      rw [hpath] at hrun
      rw [atomic_iff_of_error hrun, dropQuestion_eq_iff]
      refine ⟨.inr, ?_⟩
      rintro (hsafe | hunasked)
      · obtain ⟨next, hok⟩ := hnext.mpr hsafe
        rw [hpath] at hok
        cases hok
      · exact hunasked

/-- A decision that skips ahead marks the skipped phases, and then looks for its target. -/
theorem atomic_forward_iff {outcome : Outcome} {pending : Option PendingDecision}
    (hkind : outcome.kind = .forward) :
    Atomic (advanceCompletedPhase phaseId now (some outcome) pending) workflow ↔
      workflow.LeadsAhead phaseId outcome ∨
        (workflow.Unasked ∧ workflow.Started outcome.skipped) := by
  set written := skipPhaseRange (dropQuestion workflow) outcome.skipped now outcome with hwritten
  have hrun : advanceCompletedPhase phaseId now (some outcome) pending workflow =
      match forwardTarget written phaseId outcome with
      | .ok key => .ok (some key) (start written key now)
      | .error failure => .error failure written := by
    unfold advanceCompletedPhase
    dsimp only
    rw [hkind]
    change EStateM.bind (ofExcept (forwardTarget written phaseId outcome)) _ written = _
    cases forwardTarget written phaseId outcome <;> rfl
  have htarget : (∃ key, forwardTarget written phaseId outcome = .ok key) ↔
      workflow.LeadsAhead phaseId outcome := forwardTarget_ok_iff.trans leadsAhead_skip
  cases hfound : forwardTarget written phaseId outcome with
  | ok key =>
      rw [hfound] at hrun
      exact iff_of_true (atomic_of_ok hrun) (.inl (htarget.mp ⟨key, hfound⟩))
  | error failure =>
      rw [hfound] at hrun
      rw [atomic_iff_of_error hrun, hwritten, skip_eq_iff]
      refine ⟨.inr, ?_⟩
      rintro (hahead | hnothing)
      · obtain ⟨key, hok⟩ := htarget.mpr hahead
        rw [hfound] at hok
        cases hok
      · exact hnothing

/-- **An advance is atomic exactly when it goes through or had nothing to undo.** -/
theorem atomic_advance_iff {outcome : Option Outcome} {pending : Option PendingDecision} :
    Atomic (advanceCompletedPhase phaseId now outcome pending) workflow ↔
      (Call.advance phaseId now outcome pending).Safe workflow := by
  cases outcome with
  | none => exact atomic_linear_iff
  | some outcome =>
      by_cases hforward : outcome.kind = .forward
      · rw [atomic_forward_iff hforward, Call.Safe, hforward]
      · unfold advanceCompletedPhase Call.Safe
        dsimp only
        cases hkind : outcome.kind with
        | forward => exact absurd hkind hforward
        | loop => exact iff_of_true ((atomic_iff_of_error rfl).mpr rfl) trivial
        | pause reason =>
            refine iff_of_true ?_ trivial
            cases pending with
            | none => exact (atomic_iff_of_error rfl).mpr rfl
            | some question => exact atomic_of_ok rfl
        | «end» => exact iff_of_true (atomic_of_ok rfl) trivial
        | next => exact atomic_linear_iff
        | unknown => exact atomic_linear_iff

end Advance

/-! ## Rework -/

section Rework

variable {workflow : Workflow} {now : Text} {invalidation : Invalidation}

theorem phase_update (key id : Text) (f : Phase → Phase) : (workflow.update id f).phase key
    = (workflow.phase key).map fun phase => if key = id then f phase else phase := by
  unfold Workflow.phase Workflow.update
  cases workflow.phases with
  | none => rfl
  | some phases =>
      simp only [Option.map_some, Option.bind_some]
      have hfind : (phases.map fun entry : Text × Phase =>
            if entry.1 = id then (entry.1, f entry.2) else entry).find? (·.1 = key)
          = (phases.find? (·.1 = key)).map fun entry =>
            if entry.1 = id then (entry.1, f entry.2) else entry := by
        rw [List.find?_map]
        congr 2
        funext entry
        dsimp only [Function.comp]
        split <;> rfl
      rw [hfind]
      cases hkey : phases.find? (·.1 = key) with
      | none => rfl
      | some entry =>
          obtain rfl : entry.1 = key := by simpa using List.find?_some hkey
          simp only [Option.map_some]
          split <;> rfl

/-- A phase whose decisions can be invalidated. -/
def Workflow.WellFormedAt (workflow : Workflow) (id : Text) : Prop :=
  (workflow.phase id).any Phase.wellFormed = true

/-- Writing a well-formed phase in the place of one keeps all of them. -/
theorem wellFormedAt_update {id other : Text} {f : Phase → Phase}
    (hf : ∀ phase, phase.wellFormed = true → (f phase).wellFormed = true)
    (h : workflow.WellFormedAt other) : (workflow.update id f).WellFormedAt other := by
  unfold Workflow.WellFormedAt at h ⊢
  rw [Option.any_eq_true] at h
  obtain ⟨phase, hphase, hformed⟩ := h
  rw [phase_update, hphase, Option.map_some, Option.any_some]
  split
  · exact hf phase hformed
  · exact hformed

theorem invalidateApprovals_ok (now : Text) (invalidation : Invalidation)
    {approvals : List (Option ApprovalRecord)}
    (h : approvals.all Option.isSome = true) :
    (invalidateApprovals now invalidation approvals).2 = none ∧
      (invalidateApprovals now invalidation approvals).1.all Option.isSome = true := by
  induction approvals with
  | nil => exact ⟨rfl, rfl⟩
  | cons approval approvals ih =>
      rw [List.all_cons, Bool.and_eq_true] at h
      obtain ⟨record, rfl⟩ := Option.isSome_iff_exists.mp h.1
      exact ih h.2

theorem read_eq : (EStateM.get : Transition Workflow) workflow = .ok workflow workflow := rfl

/-- What the reset of a phase writes, and where it stops. -/
theorem resetPhaseForRework_eq (now : Text) (status : PhaseStatus) (invalidation : Invalidation)
    (retainable : Bool) {id : Text} {phase : Phase} (hphase : workflow.phase id = some phase) :
    resetPhaseForRework id now status invalidation retainable workflow =
      let result := invalidateApprovals now invalidation (phase.approvals.getD [])
      let written := workflow.update id fun phase =>
        { phase with approvals := phase.approvals.map fun _ => result.1 }
      match result.2 with
      | some failure => .error failure written
      | none => .ok () (written.update id (clear · now status retainable)) := by
  unfold resetPhaseForRework
  simp only [bind, EStateM.bind, get, getThe, MonadStateOf.get, read_eq, hphase]
  cases (invalidateApprovals now invalidation (phase.approvals.getD [])).2 <;> rfl

/-- The reset of a phase that is well formed goes through, and leaves every phase
well formed that was. -/
theorem resetPhaseForRework_ok (now : Text) (invalidation : Invalidation) (status : PhaseStatus)
    (retainable : Bool) {id : Text} (h : workflow.WellFormedAt id) :
    ∃ left, resetPhaseForRework id now status invalidation retainable workflow = .ok () left ∧
      ∀ other, workflow.WellFormedAt other → left.WellFormedAt other := by
  obtain ⟨phase, hphase, hformed⟩ := (Option.any_eq_true _ _).mp h
  obtain ⟨approvals, happrovals, hobjects⟩ := (Option.any_eq_true _ _).mp hformed
  obtain ⟨hgoes, hkept⟩ := invalidateApprovals_ok now invalidation hobjects
  set written := invalidateApprovals now invalidation approvals with hwritten
  refine ⟨(workflow.update id fun phase =>
      { phase with approvals := phase.approvals.map fun _ => written.1 }).update id
        (clear · now status retainable), ?_, fun other hother => ?_⟩
  · have hrun := resetPhaseForRework_eq now status invalidation retainable hphase
    rw [happrovals, Option.getD_some, ← hwritten] at hrun
    dsimp only at hrun
    rw [hgoes] at hrun
    exact hrun
  · refine wellFormedAt_update (fun phase hphase => hphase) (wellFormedAt_update ?_ hother)
    intro phase hphase
    obtain ⟨old, hold, -⟩ := (Option.any_eq_true _ _).mp hphase
    rw [Phase.wellFormed, hold, Option.map_some, Option.any_some]
    exact hkept

theorem resetPhases_ok (now : Text) (invalidation : Invalidation) (retain : Bool) {range : List (Text × Nat)}
    (h : ∀ entry ∈ range, workflow.WellFormedAt entry.1) :
    ∃ left, resetPhases now invalidation retain range workflow = .ok () left := by
  induction range generalizing workflow with
  | nil => exact ⟨workflow, rfl⟩
  | cons entry range ih =>
      obtain ⟨hentry, hrange⟩ := List.forall_mem_cons.mp h
      obtain ⟨left, hreset, hkept⟩ := resetPhaseForRework_ok now invalidation
        (if entry.2 = 0 then .inProgress else .notStarted) (retain && 0 < entry.2) hentry
      obtain ⟨final, hfinal⟩ := ih fun other hother => hkept other.1 (hrange other hother)
      refine ⟨final, ?_⟩
      unfold resetPhases
      change EStateM.bind (resetPhaseForRework entry.1 now _ invalidation _) _ workflow = _
      rw [EStateM.bind, hreset]
      exact hfinal

/-- **Rework is atomic**: it writes only what it has checked. -/
theorem resetPhaseRangeForRework_atomic (targetId : Text) (retain : Bool) :
    Atomic (resetPhaseRangeForRework targetId now invalidation retain) workflow := by
  cases hindex : phaseIndex workflow targetId with
  | error failure =>
      have hrun : resetPhaseRangeForRework targetId now invalidation retain workflow
          = .error failure workflow := by
        unfold resetPhaseRangeForRework
        simp only [bind, EStateM.bind, get, getThe, MonadStateOf.get, read_eq, hindex]
        rfl
      exact (atomic_iff_of_error hrun).mpr rfl
  | ok index =>
      set affectedIds := (workflow.phaseOrder.getD []).drop index with haffected
      by_cases hformed : affectedIds.any (fun id => !(workflow.phase id).any Phase.wellFormed) = true
      · have hrun : resetPhaseRangeForRework targetId now invalidation retain workflow
            = .error (transitionInvalid
              (js "Lifecycle rework requires an existing decision collection.")) workflow := by
          unfold resetPhaseRangeForRework
          simp only [bind, EStateM.bind, get, getThe, MonadStateOf.get, read_eq, hindex,
            ofExcept, pure, EStateM.pure, ← haffected, if_pos hformed]
          rfl
        exact (atomic_iff_of_error hrun).mpr rfl
      · have hwell : ∀ entry ∈ affectedIds.zipIdx, workflow.WellFormedAt entry.1 := by
          intro entry hentry
          by_contra hnot
          refine hformed (List.any_eq_true.mpr ⟨entry.1, List.fst_mem_of_mem_zipIdx hentry, ?_⟩)
          rw [Bool.not_eq_true', ← Bool.not_eq_true]
          exact hnot
        obtain ⟨left, hreset⟩ := resetPhases_ok now invalidation retain hwell
        have hrun : ∃ left, resetPhaseRangeForRework targetId now invalidation retain workflow
            = .ok affectedIds left := by
          unfold resetPhaseRangeForRework
          simp only [bind, EStateM.bind, get, getThe, MonadStateOf.get, read_eq, hindex,
            ofExcept, pure, EStateM.pure, ← haffected, if_neg hformed, hreset]
          exact ⟨_, rfl⟩
        obtain ⟨left, hrun⟩ := hrun
        exact atomic_of_ok hrun

/-- What the target records is written after the range was reset. -/
theorem reopenPhaseRange_atomic (targetId : Text) (actor : Value) (reason : Text) (retain : Bool) :
    Atomic (reopenPhaseRange targetId now actor reason retain) workflow := by
  cases hreset : resetPhaseRangeForRework targetId now id retain workflow with
  | ok affectedIds left =>
      have hrun : ∃ left, reopenPhaseRange targetId now actor reason retain workflow
          = .ok affectedIds left := by
        unfold reopenPhaseRange
        simp only [bind, EStateM.bind, hreset]
        exact ⟨_, rfl⟩
      obtain ⟨left, hrun⟩ := hrun
      exact atomic_of_ok hrun
  | error failure left =>
      have hrun : reopenPhaseRange targetId now actor reason retain workflow
          = .error failure left := by
        unfold reopenPhaseRange
        simp only [bind, EStateM.bind, hreset]
      exact (atomic_iff_of_error hrun).mpr
        (resetPhaseRangeForRework_atomic targetId retain failure left hreset)

end Rework

/-! ## Every transition -/

/-- **A refused transition leaves the workflow as it was exactly when it is
`Safe`.**  Rework always is, and so is an advance that goes through, that only
pauses or ends, or that had neither a question to drop nor a phase to skip. -/
theorem atomic_iff (workflow : Workflow) (call : Call) :
    Atomic call.run workflow ↔ call.Safe workflow := by
  cases call with
  | advance phaseId now outcome pending => exact atomic_discard.trans atomic_advance_iff
  | reset targetId now invalidation retain =>
      exact iff_of_true (atomic_discard.mpr (resetPhaseRangeForRework_atomic targetId retain)) trivial
  | reopen targetId now actor reason retain =>
      exact iff_of_true
        (atomic_discard.mpr (reopenPhaseRange_atomic targetId actor reason retain)) trivial

/-! ### A question that a refusal drops -/

/-- A phase of a Story, in its place in the order. -/
def samplePhase (id : Text) (status : PhaseStatus) : Phase where
  id := some id
  status := status
  generation := 1
  approvals := some []
  decisionInputs := none
  reworkRevalidation := none
  retention := none
  startedAt := none
  submittedAt := none
  approvedAt := none
  approvedBy := none
  submissionArchitectureDecision := none
  skippedAt := none
  skippedBy := none
  rejectedAt := none
  rejectedBy := none
  rejectionReason := none
  approvalDisposition := none
  approvalWaiver := none

/-- A Story that waits for an answer after its first phase. -/
def sampleWorkflow : Workflow where
  phaseOrder := some [js "planning", js "release"]
  phases := some [(js "planning", samplePhase (js "planning") .approved),
    (js "release", samplePhase (js "release") .notStarted)]
  skillVersionAmendments := []
  pendingDecision := some ⟨js "ship", js "Ship", js "planning", .ask, none, none, [], false, none, []⟩
  currentPhase := some (js "planning")
  status := .inProgress
  completion := none

/-- The advance of a phase that the Story does not have is refused, and drops
the question. -/
theorem advance_not_atomic :
    ¬ ∀ (workflow : Workflow) (call : Call), Atomic call.run workflow := by
  intro h
  have hsafe := atomic_advance_iff.mp (atomic_discard.mp
    (h sampleWorkflow (.advance (js "missing") (js "2026-01-01T00:00:00Z") none none)))
  rcases hsafe with ⟨⟨order, horder, hmem, -⟩, -⟩ | hunasked
  · obtain rfl := Option.some.inj horder
    exact absurd hmem (by decide)
  · cases hunasked

end Stored

end Story

end SingularityFlow
