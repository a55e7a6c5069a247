/-
# Dispatch of ready tasks

`deterministicSgosDispatchPlan` chooses, among the tasks that are ready, those
to start now.  It goes through them once, in the order of their identities,
and takes each one that fits: while slots are left, when its resources do not
conflict with those of a running or chosen task, and when none of its fan-out
groups is full.

A map from ids is the list of its values here, each value with its id.
-/
import SingularityFlow.Sgos.Resources

namespace SingularityFlow

open Ecma

namespace Sgos

/-! ## Programs and processes -/

inductive Opcode where
  | kernel | agent | device | verify | humanRequest | join | merge | checkpoint | spawn | compensate
  | noop | end
deriving DecidableEq

inductive TaskState where
  | planned | waiting | ready | leased | running | waitingHuman | verifying | succeeded | failed
  | blocked | cancelled | invalidated | recoveryRequired | skipped
deriving DecidableEq

inductive ProcessStatus where
  | queued | running | waitingHuman | blocked | paused | succeeded | failed | cancelled
  | recoveryRequired
deriving DecidableEq

/-- The membership of a task in a fan-out group. -/
structure FanoutMembership where
  parentTaskId : Text
  itemKey : Text
  maximumParallel : Nat
deriving DecidableEq

structure Metadata where
  fanoutLineage : List FanoutMembership
  fanout : Option FanoutMembership
  dynamicFanoutCoordinator : Bool

structure Template where
  taskTemplateId : Text
  opcode : Opcode
  resources : Resources
  metadata : Metadata

/-- A join contract as the Program states it, under either name of a field. -/
structure JoinDraft where
  joinId : Option Text
  taskTemplateId : Option Text
  policy : Option Text
  mode : Option Text
  predecessorTaskTemplateIds : Option (List Text)
  dependsOn : Option (List Text)
  requiredSuccesses : Option Int
  threshold : Option Int
  reducerId : Option Text
  reducer : Option Text

structure Program where
  taskTemplates : List Template
  joins : List JoinDraft

structure Task where
  taskInstanceId : Text
  taskTemplateId : Text
  state : TaskState
  attemptIds : List Text
  predecessorTaskInstanceIds : List Text
  fanoutBinding : Option FanoutMembership

structure Process where
  status : ProcessStatus
  activeExecutions : List Text
  taskInstances : List Task

def schedulerFail (message code : Text) : Failure := .singularityFlow message (some code)

/-- `templateMap(program).get(id)`: of templates with one id, the last counts. -/
def Program.template (program : Program) (id : Text) : Option Template :=
  program.taskTemplates.reverse.find? (·.taskTemplateId = id)

/-- `process.taskInstances[id]`, for an own key. -/
def Process.task (process : Process) (id : Text) : Option Task :=
  process.taskInstances.find? (·.taskInstanceId = id)

/-! ## Joins -/

inductive JoinPolicy where
  | allSuccess | allTerminal | deterministicReduce | manualReconcile | quorum
deriving DecidableEq

def joinPolicy (name : Text) : Option JoinPolicy :=
  if name = js "all-success" then some .allSuccess
  else if name = js "all-terminal" then some .allTerminal
  else if name = js "deterministic-reduce" then some .deterministicReduce
  else if name = js "manual-reconcile" then some .manualReconcile
  else if name = js "quorum" then some .quorum
  else none

structure Join where
  joinId : Text
  taskTemplateId : Text
  policy : JoinPolicy
  requiredSuccesses : Int
  predecessorTaskTemplateIds : List Text

def canonicalSgosJoin (value : JoinDraft) : Except Failure Join := do
  let joinId := (value.joinId.or value.taskTemplateId).getD []
  let taskTemplateId := value.taskTemplateId.getD joinId
  let policyName := (value.policy.or value.mode).getD []
  let predecessors := (distinct ((value.predecessorTaskTemplateIds.or value.dependsOn).getD []))
    |>.insertionSort fun a b => compareSgosCodePoints a b ≠ .gt
  failIf (joinId = [] ∨ taskTemplateId = [])
    (schedulerFail (js "A join requires joinId and taskTemplateId.") (js "SGOS_JOIN_INVALID"))
  match joinPolicy policyName with
  | none =>
      .error (schedulerFail (js "Join '" ++ joinId ++ js "' policy '" ++ policyName
        ++ js "' is not installed.") (js "SGOS_JOIN_POLICY_UNSUPPORTED"))
  | some policy => do
      failIf (predecessors = [] ∨ predecessors.length > InstalledLimits.maximumJoinInputs)
        (schedulerFail (js "Join '" ++ joinId ++ js "' has an invalid predecessor count.")
          (js "SGOS_JOIN_LIMIT"))
      let required := value.requiredSuccesses.or value.threshold
      let reducerId := value.reducerId.or value.reducer
      failIf (if policy = .quorum then
          required.all (fun n => n < 1 || (predecessors.length : Int) < n) = true
        else required.isSome = true)
        (schedulerFail (js "Join '" ++ joinId ++ js "' has invalid requiredSuccesses.")
          (js "SGOS_JOIN_QUORUM_INVALID"))
      failIf (if policy = .deterministicReduce then
          reducerId ≠ some (js "canonical-output-ref-set-v1")
        else reducerId.isSome = true)
        (schedulerFail (js "Join '" ++ joinId ++ js "' has an invalid reducer.")
          (js "SGOS_JOIN_REDUCER_INVALID"))
      .ok ⟨joinId, taskTemplateId, policy, required.getD 0, predecessors⟩

def canonicalSgosJoins (joins : List JoinDraft) : Except Failure (List Join) := do
  failIf (joins.length > InstalledLimits.maximumTasks)
    (schedulerFail (js "Join count exceeds the installed task ceiling.") (js "SGOS_JOIN_LIMIT"))
  let normalized ← sequence (joins.map canonicalSgosJoin)
  failIf (¬ (normalized.map (·.joinId)).Nodup ∨ ¬ (normalized.map (·.taskTemplateId)).Nodup)
    (schedulerFail (js "Join IDs and taskTemplateIds must be unique.") (js "SGOS_JOIN_INVALID"))
  .ok (normalized.insertionSort fun a b => compareSgosCodePoints a.joinId b.joinId ≠ .gt)

def sgosJoinForTask (program : Program) (taskTemplateId : Text) : Except Failure (Option Join) := do
  let joins ← canonicalSgosJoins program.joins
  .ok (joins.find? (·.taskTemplateId = taskTemplateId))

def isSgosTerminalTaskState (state : TaskState) : Bool :=
  state ∈ ([.succeeded, .failed, .blocked, .cancelled, .skipped] : List TaskState)

structure Readiness where
  ready : Bool
  impossible : Bool
deriving DecidableEq

/-- `undefined` is the state of a value that is no task. -/
def succeeded (state : Option TaskState) : Bool := state = some .succeeded

def terminal (state : Option TaskState) : Bool := state.any isSgosTerminalTaskState

def sgosJoinReadiness (join : Join) (states : List (Option TaskState)) : Except Failure Readiness := do
  failIf (states.length ≠ join.predecessorTaskTemplateIds.length)
    (schedulerFail (js "Join '" ++ join.joinId
      ++ js "' predecessor state count does not match its contract.") (js "SGOS_JOIN_INVALID"))
  match join.policy with
  | .allSuccess | .deterministicReduce =>
      .ok ⟨states.all succeeded, states.any fun state => terminal state && !succeeded state⟩
  | .quorum =>
      let successes := states.countP succeeded
      let possible := successes + states.countP (!terminal ·)
      .ok ⟨join.requiredSuccesses ≤ successes, (possible : Int) < join.requiredSuccesses⟩
  | .allTerminal | .manualReconcile => .ok ⟨states.all terminal, false⟩

/-! ## Readiness -/

/-- The states of the predecessors that the process knows; a name that the
map of tasks inherits is a value without a state. -/
def predecessorStates (process : Process) (task : Task) : List (Option TaskState) :=
  task.predecessorTaskInstanceIds.filterMap fun id =>
    match process.task id with
    | some predecessor => some (some predecessor.state)
    | none => if id ∈ inheritedNames then some none else none

def sgosTaskReadiness (program : Program) (process : Process) (task : Task) :
    Except Failure Readiness :=
  match program.template task.taskTemplateId with
  | none =>
      .error (schedulerFail (js "Task '" ++ task.taskInstanceId ++ js "' has no Program template.")
        (js "SGOS_SCHEDULER_INVALID"))
  | some template => do
      let predecessors := predecessorStates process task
      failIf (predecessors.length ≠ task.predecessorTaskInstanceIds.length)
        (schedulerFail (js "Task '" ++ task.taskInstanceId ++ js "' has a missing predecessor.")
          (js "SGOS_SCHEDULER_INVALID"))
      if template.opcode ≠ .join then
        let allPredecessorsSucceeded := predecessors.all succeeded
        if template.opcode = .end then
          let allOtherTasksTerminal := process.taskInstances.all fun entry =>
            entry.taskInstanceId = task.taskInstanceId || isSgosTerminalTaskState entry.state
          .ok ⟨allPredecessorsSucceeded && allOtherTasksTerminal, false⟩
        else .ok ⟨allPredecessorsSucceeded, false⟩
      else do
        match ← sgosJoinForTask program template.taskTemplateId with
        | none =>
            .error (schedulerFail (js "JOIN task '" ++ template.taskTemplateId
              ++ js "' has no installed join contract.") (js "SGOS_JOIN_CONTRACT_MISSING"))
        | some join =>
            if template.metadata.dynamicFanoutCoordinator then do
              failIf (join.policy ≠ .allSuccess)
                (schedulerFail (js "Dynamic fan-out JOIN '" ++ template.taskTemplateId
                  ++ js "' must use all-success.") (js "SGOS_DYNAMIC_FANOUT_EXPANSION_INVALID"))
              .ok ⟨predecessors.all succeeded,
                predecessors.any fun state => terminal state && !succeeded state⟩
            else sgosJoinReadiness join predecessors

/-! ## Fan-out groups -/

def taskFanoutMemberships (template : Template) (binding : Option FanoutMembership) :
    Except Failure (List FanoutMembership) := do
  let memberships := template.metadata.fanoutLineage ++ template.metadata.fanout.toList
    ++ binding.toList
  failIf (memberships.any (fun membership => membership.parentTaskId = [] || membership.itemKey = []
      || membership.maximumParallel < 1
      || InstalledLimits.maximumFanoutParallel < membership.maximumParallel) = true)
    (schedulerFail (js "Task '" ++ template.taskTemplateId
      ++ js "' has malformed fan-out membership.") (js "SGOS_FANOUT_INVALID"))
  failIf (¬ (memberships.map (·.parentTaskId)).Nodup)
    (schedulerFail (js "Task '" ++ template.taskTemplateId
      ++ js "' repeats a fan-out group in its lineage.") (js "SGOS_FANOUT_INVALID"))
  .ok memberships

/-- The loop over the memberships of one template; `limits` are the ceilings so far. -/
def checkCeilings : List (Text × Nat) → List FanoutMembership →
    Except Failure (List (Text × Nat))
  | limits, [] => .ok limits
  | limits, membership :: rest => do
      failIf ((mapGet limits membership.parentTaskId).any (· ≠ membership.maximumParallel) = true)
        (schedulerFail (js "Fan-out '" ++ membership.parentTaskId
          ++ js "' has inconsistent parallel ceilings.") (js "SGOS_FANOUT_INVALID"))
      checkCeilings (mapSet limits membership.parentTaskId membership.maximumParallel) rest

/-- The loop over the templates; the binding of a task counts when the
template has exactly one. -/
def checkTemplates (process : Process) : List (Text × Nat) → List Template → Except Failure Unit
  | _, [] => .ok ()
  | limits, template :: rest => do
      let matching := process.taskInstances.filter (·.taskTemplateId = template.taskTemplateId)
      let memberships ← taskFanoutMemberships template
        (match matching with | [task] => task.fanoutBinding | _ => none)
      let next ← checkCeilings limits memberships
      checkTemplates process next rest

/-! ## The plan -/

/-- The tasks with an attempt under way. -/
def activeTasks (process : Process) : List Task :=
  process.taskInstances.filter fun task => task.attemptIds.any (· ∈ process.activeExecutions)

/-- A running task, or one that could be started, with what it uses. -/
structure Candidate where
  task : Task
  opcode : Opcode
  entries : List ResourceEntry
  memberships : List FanoutMembership

variable (tables : UnicodeTables)

/-- What a task uses; a task without a template has no `resources` to read. -/
def candidate (program : Program) (task : Task) : Except Failure Candidate :=
  match program.template task.taskTemplateId with
  | none => .error (.typeError (js "Cannot read properties of undefined (reading 'resources')"))
  | some template => do
      let entries ← canonicalSgosResourceEntries tables template.resources
      let memberships ← taskFanoutMemberships template task.fanoutBinding
      .ok ⟨task, template.opcode, entries, memberships⟩

/-- The states from which a task can be started. -/
def startable (task : Task) : Bool :=
  task.state ∈ ([.planned, .waiting, .ready] : List TaskState)

/-- The startable tasks that are ready. -/
def readyTasks (program : Program) (process : Process) : Except Failure (List Task) := do
  let tasks := process.taskInstances.filter startable
  let readiness ← sequence (tasks.map (sgosTaskReadiness program process))
  .ok (((tasks.zip readiness).filter fun p => p.2.ready).map Prod.fst)

def taskOrder (left right : Task) : Ordering :=
  (compareSgosCodePoints left.taskTemplateId right.taskTemplateId).then
    (compareSgosCodePoints left.taskInstanceId right.taskInstanceId)

/-- The item keys of a group among tasks: the set that the maps of the loop
hold for the group. -/
def groupItems (tasks : List Candidate) (parentTaskId : Text) : List Text :=
  distinct ((tasks.flatMap (·.memberships)).filter (·.parentTaskId = parentTaskId) |>.map (·.itemKey))

/-- A group of the candidate is full, and its item is not running. -/
def fanoutBlocked (active selected : List Candidate) (next : Candidate) : Bool :=
  next.memberships.any fun membership =>
    membership.itemKey ∉ groupItems active membership.parentTaskId
      && membership.itemKey ∉ groupItems selected membership.parentTaskId
      && membership.maximumParallel ≤ (groupItems (active ++ selected) membership.parentTaskId).length

/-- The loop over the ready tasks. -/
def selectTasks (active : List Candidate) (available : Nat) :
    List Candidate → List Candidate → Except Failure (List Candidate)
  | selected, [] => .ok selected
  | selected, next :: rest =>
      if selected.length ≥ available then .ok selected
      else do
        let activeConflict ← someM (fun entry =>
          sgosResourceEntriesConflict tables next.entries entry.entries) active
        let conflict ← if activeConflict then .ok true else someM (fun entry =>
          sgosResourceEntriesConflict tables next.entries entry.entries) selected
        if conflict then selectTasks active available selected rest
        else if fanoutBlocked active selected next then selectTasks active available selected rest
        else selectTasks active available (selected ++ [next]) rest

/-- The statuses in which nothing is started. -/
def suspended (status : ProcessStatus) : Bool :=
  status ∈ ([.paused, .blocked, .failed, .cancelled, .succeeded, .recoveryRequired] :
    List ProcessStatus)

/-- An entry of the plan. -/
structure PlanEntry where
  taskInstanceId : Text
  taskTemplateId : Text
  opcode : Opcode
deriving DecidableEq

def Candidate.planEntry (c : Candidate) : PlanEntry :=
  ⟨c.task.taskInstanceId, c.task.taskTemplateId, c.opcode⟩

/-- The templates of a Program, one for each id, in the order of insertion. -/
def Program.templates (program : Program) : List Template :=
  (distinct (program.taskTemplates.map (·.taskTemplateId))).filterMap program.template

def deterministicSgosDispatchPlan (program : Program) (process : Process) (maximumParallel : Nat) :
    Except Failure (List PlanEntry) := do
  failIf (maximumParallel < 1 ∨ maximumParallel > InstalledLimits.maximumParallelExecutions)
    (schedulerFail (js "maximumParallel is outside the installed execution bound.")
      (js "SGOS_PARALLEL_LIMIT"))
  if suspended process.status then .ok []
  else do
    checkTemplates process [] program.templates
    let active ← sequence ((activeTasks process).map (candidate tables program))
    let available := maximumParallel - active.length
    if available = 0 then .ok []
    else do
      let tasks ← readyTasks program process
      let ready ← sequence (tasks.map (candidate tables program))
      let ordered := ready.insertionSort fun a b => taskOrder a.task b.task ≠ .gt
      let selected ← selectTasks tables active available [] ordered
      .ok (selected.map (·.planEntry))

end Sgos

end SingularityFlow
