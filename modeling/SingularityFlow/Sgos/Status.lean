/-
# The states of pending tasks and the status of a process

After each change of a process, `updateSgosReadinessAndStatus` goes through
its tasks once, in the order in which they stand in the process, and gives
each that has not begun the state that its predecessors imply.  It changes
the tasks in place, so a later task is judged by the new states of those
before it.  Then it works out the status of the process.

One pass is a sweep over the tasks (`refreshTasks_eq_ok`): the readiness of a
task is a function of the states of all tasks, and events only firm it up.
-/
import SingularityFlow.Sgos.Joins
import SingularityFlow.Lib.Sweep

namespace SingularityFlow

open Ecma

namespace Sgos

/-! ## The update -/

/-- A process with the requests that people have not answered. -/
structure Runtime extends Process where
  openHumanRequests : List Text

/-- `PROCESS_TERMINAL.has(status)`. -/
def processTerminal (status : ProcessStatus) : Bool :=
  status ∈ ([.succeeded, .failed, .cancelled] : List ProcessStatus)

def nextState (readiness : Readiness) : TaskState :=
  if readiness.impossible then .blocked else if readiness.ready then .ready else .waiting

/-- One turn of the loop. -/
def refreshTask (program : Program) (process : Process) (task : Task) : Except Failure Task :=
  if startable task then do
    let readiness ← sgosTaskReadiness program process task
    .ok { task with state := nextState readiness }
  else .ok task

/-- The loop over the tasks; those before have their new states. -/
def refreshTasks (program : Program) (process : Process) :
    List Task → List Task → Except Failure (List Task)
  | visited, [] => .ok visited
  | visited, task :: rest => do
      let next ← refreshTask program { process with taskInstances := visited ++ task :: rest } task
      refreshTasks program process (visited ++ [next]) rest

section Update

-- `assertProgram` says whether the Program keeps to its contract and is the one
-- that the process was started with
variable (tables : UnicodeTables) (assertProgram : Program → Except Failure Unit)

def deterministicSgosReadySet (program : Program) (process : Process) :
    Except Failure (List PlanEntry) := do
  assertProgram program
  deterministicSgosDispatchPlan tables program process 1

def someTask (process : Process) (state : TaskState) : Bool :=
  process.taskInstances.any (·.state = state)

def endSucceeded (program : Program) (process : Process) : Bool :=
  process.taskInstances.any fun task =>
    (program.template task.taskTemplateId).any (·.opcode = .end) && task.state = .succeeded

/-- The status once nothing is active, ready or asked. -/
def quietStatus (program : Program) (process : Process) : ProcessStatus :=
  if someTask process .cancelled then .cancelled
  else if someTask process .blocked then .blocked
  else if someTask process .failed then .failed
  else if process.taskInstances.all (·.state = .succeeded) then
    if endSucceeded program process then .succeeded else .blocked
  else .blocked

def nextStatus (program : Program) (process : Runtime) : Except Failure ProcessStatus :=
  if process.status = .paused ∨ processTerminal process.status = true then .ok process.status
  else if someTask process.toProcess .recoveryRequired then .ok .recoveryRequired
  else if process.activeExecutions ≠ [] then .ok .running
  else do
    let readySet ← deterministicSgosReadySet tables assertProgram program
      { process.toProcess with status := .running }
    if readySet ≠ [] then .ok .running
    else if process.openHumanRequests ≠ [] then .ok .waitingHuman
    else .ok (quietStatus program process.toProcess)

def updateSgosReadinessAndStatus (program : Program) (process : Runtime) :
    Except Failure Runtime := do
  let tasks ← refreshTasks program process.toProcess [] process.taskInstances
  let refreshed : Runtime := { process with taskInstances := tasks }
  let status ← nextStatus tables assertProgram program refreshed
  .ok { refreshed with status := status }

end Update

/-! ## States as a function of the task -/

def Task.within (σ : Text → TaskState) (task : Task) : Task :=
  { task with state := σ task.taskInstanceId }

/-- The tasks of a process in other states. -/
def Process.withStates (process : Process) (σ : Text → TaskState) : Process :=
  { process with taskInstances := process.taskInstances.map (·.within σ) }

/-- The state of a task of the process. -/
def Process.stateOf (process : Process) (id : Text) : TaskState :=
  ((process.task id).map (·.state)).getD .planned

def Process.ids (process : Process) : List Text := process.taskInstances.map (·.taskInstanceId)

variable {program : Program} {process process' : Process} {task : Task} {σ τ : Text → TaskState}

theorem task_withStates (id : Text) :
    (process.withStates σ).task id = (process.task id).map (·.within σ) := by
  unfold Process.task Process.withStates
  rw [List.find?_map]
  rfl

theorem task_of_mem (hids : process.ids.Nodup) (h : task ∈ process.taskInstances) :
    process.task task.taskInstanceId = some task := by
  have hsome : (process.task task.taskInstanceId).isSome = true :=
    List.find?_isSome.mpr ⟨task, h, by simp⟩
  obtain ⟨found, hfound⟩ := Option.isSome_iff_exists.mp hsome
  have hid : found.taskInstanceId = task.taskInstanceId := by simpa using List.find?_some hfound
  rw [hfound, List.inj_on_of_nodup_map hids (List.mem_of_find?_eq_some hfound) h hid]

theorem withStates_stateOf (hids : process.ids.Nodup) :
    process.withStates process.stateOf = process := by
  have hsame : ∀ task ∈ process.taskInstances,
      task.within process.stateOf = task := by
    intro task htask
    rw [Task.within, Process.stateOf, task_of_mem hids htask]
    rfl
  rw [Process.withStates, List.map_congr_left hsame, List.map_id']

@[simp] theorem withStates_withStates : (process.withStates σ).withStates τ = process.withStates τ := by
  simp [Process.withStates, Function.comp_def, Task.within]

@[simp] theorem ids_withStates : (process.withStates σ).ids = process.ids := by
  simp [Process.ids, Process.withStates, Function.comp_def, Task.within]

/-! ## Readiness as a function of the states -/

/-- The predecessors that the process knows; `none` is an inherited name. -/
def knownPredecessors (process : Process) (task : Task) : List (Option Text) :=
  task.predecessorTaskInstanceIds.filterMap fun id =>
    if (process.task id).isSome then some (some id)
    else if id ∈ inheritedNames then some none else none

theorem predecessorStates_withStates (σ : Text → TaskState) :
    predecessorStates (process.withStates σ) task
      = (knownPredecessors process task).map (Option.map σ) := by
  rw [predecessorStates, knownPredecessors, List.map_filterMap]
  congr 1
  funext id
  rw [task_withStates]
  cases h : process.task id with
  | some predecessor =>
      have hid : predecessor.taskInstanceId = id := by simpa using List.find?_some h
      simp [Task.within, hid]
  | none =>
      simp only [Option.map_none, Option.isSome_none, Bool.false_eq_true, if_false]
      split <;> rfl

/-- The states that stay: those of tasks that have ended. -/
def taskFinal (state : TaskState) : Prop := isSgosTerminalTaskState state = true

/-- Events that end tasks, and take back no end. -/
def LaterStates (σ τ : Text → TaskState) : Prop := ∀ id, taskFinal (σ id) → τ id = σ id

theorem moves_predecessors (h : LaterStates σ τ) :
    Moves (predecessorStates (process.withStates σ) task)
      (predecessorStates (process.withStates τ) task) := by
  rw [predecessorStates_withStates, predecessorStates_withStates, Moves,
    List.forall₂_map_left_iff, List.forall₂_map_right_iff, List.forall₂_same]
  intro id _
  cases id with
  | none => exact fun _ => rfl
  | some id => exact fun hid => congrArg some (h id hid)

theorem length_predecessorStates (σ τ : Text → TaskState) :
    (predecessorStates (process.withStates σ) task).length
      = (predecessorStates (process.withStates τ) task).length := by
  rw [predecessorStates_withStates, predecessorStates_withStates, List.length_map, List.length_map]

/-- A verdict that events can only firm up. -/
def Firm (rule : (Text → TaskState) → Readiness) : Prop :=
  ∀ σ τ, LaterStates σ τ → ((rule σ).ready = true → (rule τ).ready = true)
    ∧ ((rule σ).impossible = true → (rule τ).impossible = true)

theorem firm_verdict (process : Process) (task : Task) (join : Join) :
    Firm fun σ => verdict join (predecessorStates (process.withStates σ) task) :=
  fun _ _ h => ⟨ready_of_moves (moves_predecessors h), impossible_of_moves (moves_predecessors h)⟩

theorem all_succeeded_of_later (h : LaterStates σ τ)
    (hall : (predecessorStates (process.withStates σ) task).all succeeded = true) :
    (predecessorStates (process.withStates τ) task).all succeeded = true :=
  all_of_forall₂ (moves_predecessors h)
    (fun s l hsl hs => by rw [hsl (terminal_of_succeeded hs)]; exact hs) hall

/-- **Readiness** is a firm verdict by the states of the tasks; whether there
is one at all does not depend on them. -/
theorem readiness_rule {readiness : Readiness}
    (h : sgosTaskReadiness program (process.withStates σ) task = .ok readiness) :
    ∃ rule : (Text → TaskState) → Readiness, Firm rule ∧
      ∀ τ, sgosTaskReadiness program (process.withStates τ) task = .ok (rule τ) := by
  unfold sgosTaskReadiness at h ⊢
  cases htemplate : program.template task.taskTemplateId with
  | none => simp [htemplate] at h
  | some template =>
  simp only [htemplate, bind_eq_ok_iff, failIf_eq_ok_iff, not_not, exists_const] at h ⊢
  obtain ⟨hknown, h⟩ := h
  have hlength : ∀ τ, (predecessorStates (process.withStates τ) task).length
      = task.predecessorTaskInstanceIds.length :=
    fun τ => (length_predecessorStates τ σ).trans hknown
  simp only [hlength, true_and]
  by_cases hjoin : template.opcode = .join
  · simp only [hjoin, ne_eq, not_true_eq_false, if_false, bind_eq_ok_iff] at h ⊢
    obtain ⟨join?, hcontract, h⟩ := h
    simp only [hcontract, Except.ok.injEq, exists_eq_left']
    cases join? with
    | none => cases h
    | some join =>
    by_cases hdynamic : template.metadata.dynamicFanoutCoordinator = true
    · simp only [hdynamic, if_true, bind_eq_ok_iff, failIf_eq_ok_iff, not_not, exists_const,
        Except.ok.injEq] at h ⊢
      refine ⟨_, firm_verdict process task { join with policy := .allSuccess }, fun τ => ⟨h.1, rfl⟩⟩
    · simp only [hdynamic, Bool.false_eq_true, if_false] at h ⊢
      have hcount : task.predecessorTaskInstanceIds.length
          = join.predecessorTaskTemplateIds.length := by
        by_contra hne
        rw [sgosJoinReadiness, failIf, if_pos (hknown ▸ hne)] at h
        cases h
      exact ⟨_, firm_verdict process task join,
        fun τ => sgosJoinReadiness_eq ((hlength τ).trans hcount)⟩
  · simp only [hjoin, ne_eq, not_false_eq_true, if_true]
    by_cases hend : template.opcode = .end
    · simp only [hend, if_true]
      refine ⟨_, fun σ τ hlater => ⟨fun hready => ?_, id⟩, fun τ => rfl⟩
      rw [Bool.and_eq_true] at hready ⊢
      refine ⟨all_succeeded_of_later hlater hready.1, ?_⟩
      have hothers := hready.2
      simp only [Process.withStates, List.all_map, List.all_eq_true, Function.comp_apply,
        Bool.or_eq_true, decide_eq_true_eq] at hothers ⊢
      refine fun other hother => (hothers other hother).imp_right fun hfinal => ?_
      have hstays : τ other.taskInstanceId = σ other.taskInstanceId := hlater _ hfinal
      rw [Task.within, hstays]
      exact hfinal
    · simp only [hend, if_false]
      exact ⟨_, fun σ τ hlater => ⟨all_succeeded_of_later hlater, id⟩, fun τ => rfl⟩

/-! ## The pass as a sweep -/

/-- The verdict on a task when the tasks have other states. -/
def verdictAt (program : Program) (process : Process) (σ : Text → TaskState) (id : Text) :
    TaskState :=
  match process.task id with
  | none => .waiting
  | some task =>
      match sgosTaskReadiness program (process.withStates σ) task with
      | .ok readiness => nextState readiness
      | .error _ => .waiting

/-- The states from which a task can be started. -/
def pending (state : TaskState) : Bool := state ∈ ([.planned, .waiting, .ready] : List TaskState)

/-- The loop over the tasks. -/
def taskSweep (program : Program) (process : Process) : Ecma.Sweep Text TaskState :=
  ⟨pending, taskFinal, verdictAt program process⟩

theorem nextState_cases (readiness : Readiness) :
    pending (nextState readiness) = true ∨ taskFinal (nextState readiness) := by
  unfold nextState
  split
  · exact .inr rfl
  · split <;> exact .inl rfl

theorem not_taskFinal_of_pending {state : TaskState} (h : pending state = true) :
    ¬ taskFinal state := by
  cases state <;> simp_all [pending, taskFinal, isSgosTerminalTaskState]

theorem nextState_final_iff {readiness : Readiness} :
    taskFinal (nextState readiness) ↔ readiness.impossible = true := by
  unfold nextState
  split
  · next h => exact ⟨fun _ => h, fun _ => rfl⟩
  · next h => split <;> simp [taskFinal, isSgosTerminalTaskState, h]

/-- A verdict at the start and at the end of some events that is the same has
been the same in between. -/
theorem nextState_between {first middle last : Readiness}
    (h : (first.ready = true → middle.ready = true) ∧
      (first.impossible = true → middle.impossible = true))
    (h' : (middle.ready = true → last.ready = true) ∧
      (middle.impossible = true → last.impossible = true))
    (heq : nextState last = nextState first) : nextState middle = nextState first := by
  rcases first with ⟨_ | _, _ | _⟩ <;> rcases middle with ⟨_ | _, _ | _⟩ <;>
    rcases last with ⟨_ | _, _ | _⟩ <;> simp_all [nextState]

theorem taskSweep_settles (program : Program) (process : Process) :
    (taskSweep program process).Settles := by
  -- at each place, the verdicts are one firm rule, or constant
  have hrule : ∀ id, (∀ σ, verdictAt program process σ id = .waiting)
      ∨ ∃ rule, Firm rule ∧ ∀ σ, verdictAt program process σ id = nextState (rule σ) := by
    intro id
    unfold verdictAt
    cases process.task id with
    | none => exact .inl fun _ => rfl
    | some task =>
        by_cases hok : ∃ σ readiness,
            sgosTaskReadiness program (process.withStates σ) task = .ok readiness
        · obtain ⟨σ, readiness, h⟩ := hok
          obtain ⟨rule, hfirm, hall⟩ := readiness_rule h
          exact .inr ⟨rule, hfirm, fun τ => by simp only [hall]⟩
        · refine .inl fun σ => ?_
          cases h : sgosTaskReadiness program (process.withStates σ) task with
          | ok readiness => exact absurd ⟨σ, readiness, h⟩ hok
          | error _ => simp only [h]
  refine ⟨not_taskFinal_of_pending, fun σ id => ?_, fun {σ τ id} hlater hfinal => ?_,
    fun {σ τ υ id} hlater hlater' heq => ?_⟩ <;>
    simp only [taskSweep] at * <;>
    rcases hrule id with hconst | ⟨rule, hfirm, hall⟩
  · exact .inl (by rw [hconst]; rfl)
  · rw [hall]; exact nextState_cases _
  · rw [hconst, hconst]
  · rw [hall] at hfinal ⊢
    have himpossible := (hfirm σ τ hlater).2 (nextState_final_iff.mp hfinal)
    rw [hall, nextState, nextState, if_pos himpossible, if_pos (nextState_final_iff.mp hfinal)]
  · rw [hconst, hconst]
  · rw [hall, hall] at heq ⊢
    exact nextState_between (hfirm σ τ hlater) (hfirm τ υ hlater') heq

theorem map_within_congr {tasks : List Task} (h : ∀ task ∈ tasks, σ task.taskInstanceId
    = τ task.taskInstanceId) : tasks.map (·.within σ) = tasks.map (·.within τ) :=
  List.map_congr_left fun task htask => by rw [Task.within, Task.within, h task htask]

/-- A visit leaves the states of the tasks with other ids. -/
theorem map_within_visit {tasks : List Task} {id : Text}
    (h : id ∉ tasks.map (·.taskInstanceId)) :
    tasks.map (·.within ((taskSweep program process).visit τ id)) = tasks.map (·.within τ) :=
  map_within_congr fun _ htask => Sweep.visit_of_ne fun heq => h (heq ▸ List.mem_map_of_mem htask)

/-- A task can be judged: whether it can does not depend on the states. -/
def Judgeable (program : Program) (process : Process) (task : Task) : Prop :=
  ∃ σ readiness, sgosTaskReadiness program (process.withStates σ) task = .ok readiness

theorem verdictAt_of_ok (hids : process.ids.Nodup) (htask : task ∈ process.taskInstances)
    {readiness : Readiness}
    (h : sgosTaskReadiness program (process.withStates τ) task = .ok readiness) :
    verdictAt program process τ task.taskInstanceId = nextState readiness := by
  simp only [verdictAt, task_of_mem hids htask, h]

/-- A turn of the loop is a visit, if the task can be judged. -/
theorem refreshTask_eq_ok (hids : process.ids.Nodup) (htask : task ∈ process.taskInstances)
    {next : Task} : refreshTask program (process.withStates τ) (task.within τ) = .ok next ↔
      (pending (τ task.taskInstanceId) = true → Judgeable program process task)
        ∧ task.within ((taskSweep program process).visit τ task.taskInstanceId) = next := by
  unfold refreshTask
  cases hpending : pending (τ task.taskInstanceId) with
  | false =>
      have hstart : startable (task.within τ) = false := hpending
      rw [hstart, Sweep.visit_closed hpending]
      simp
  | true =>
      have hstart : startable (task.within τ) = true := hpending
      have hvisit : task.within ((taskSweep program process).visit τ task.taskInstanceId)
          = { task with state := verdictAt program process τ task.taskInstanceId } := by
        rw [Task.within, Sweep.visit_open hpending, Function.update_self]
        rfl
      rw [hstart, if_pos rfl, bind_eq_ok_iff, hvisit, imp_iff_right (rfl : true = true)]
      constructor
      · rintro ⟨readiness, hready, hnext⟩
        rw [verdictAt_of_ok hids htask hready]
        exact ⟨⟨τ, readiness, hready⟩, Except.ok.inj hnext⟩
      · rintro ⟨⟨σ, readiness, hready⟩, hnext⟩
        obtain ⟨rule, -, hrule⟩ := readiness_rule hready
        rw [verdictAt_of_ok hids htask (hrule τ)] at hnext
        exact ⟨rule τ, hrule τ, congrArg Except.ok hnext⟩

/-- **The loop** succeeds when all pending tasks can be judged, and does what
the sweep over the rest does. -/
theorem refreshTasks_eq_ok (hids : process.ids.Nodup) :
    ∀ (visited rest : List Task) (τ : Text → TaskState) {result : List Task},
      process.taskInstances = visited ++ rest →
      (refreshTasks program process (visited.map (·.within τ)) (rest.map (·.within τ)) = .ok result ↔
        (∀ task ∈ rest, pending (τ task.taskInstanceId) = true → Judgeable program process task) ∧
          result = (process.withStates
            ((taskSweep program process).run (rest.map (·.taskInstanceId)) τ)).taskInstances)
  | visited, [], τ, _, hsplit => by
      rw [List.append_nil] at hsplit
      simp only [List.map_nil, refreshTasks, Except.ok.injEq, List.not_mem_nil, false_imp_iff,
        implies_true, true_and, Sweep.run, Process.withStates, hsplit]
      exact eq_comm
  | visited, task :: rest, τ, result, hsplit => by
      have htask : task ∈ process.taskInstances := by rw [hsplit]; simp
      have hwhole : Process.mk process.status process.activeExecutions
          (visited.map (·.within τ) ++ task.within τ :: rest.map (·.within τ))
            = process.withStates τ := by
        rw [Process.withStates, hsplit, List.map_append, List.map_cons]
      obtain ⟨hvisited, hrest⟩ : task.taskInstanceId ∉ visited.map (·.taskInstanceId)
          ∧ task.taskInstanceId ∉ rest.map (·.taskInstanceId) := by
        rw [Process.ids, hsplit, List.map_append, List.map_cons] at hids
        exact ⟨fun h => (List.nodup_append.mp hids).2.2 _ h _ (by simp) rfl,
          (List.nodup_cons.mp (List.nodup_append.mp hids).2.1).1⟩
      -- the rest of the loop, in the states after the visit
      have hnext : refreshTasks program process _ _ = .ok result ↔ _ :=
        refreshTasks_eq_ok hids (visited ++ [task]) rest
          ((taskSweep program process).visit τ task.taskInstanceId)
          (hsplit.trans (List.append_cons visited task rest))
      rw [List.map_append, map_within_visit hvisited, map_within_visit hrest, List.map_singleton]
        at hnext
      have hothers : (∀ other ∈ rest,
          pending ((taskSweep program process).visit τ task.taskInstanceId other.taskInstanceId) = true
            → Judgeable program process other)
          ↔ ∀ other ∈ rest, pending (τ other.taskInstanceId) = true →
            Judgeable program process other :=
        forall₂_congr fun other hother => by
          have hne : other.taskInstanceId ≠ task.taskInstanceId :=
            fun heq => hrest (heq ▸ List.mem_map_of_mem hother)
          rw [Sweep.visit_of_ne hne]
      rw [hothers] at hnext
      rw [List.map_cons, refreshTasks, hwhole, bind_eq_ok_iff, List.forall_mem_cons,
        List.map_cons, Sweep.run]
      have hturn : ∀ next, refreshTask program (process.withStates τ) (task.within τ) = .ok next ↔
          (pending (τ task.taskInstanceId) = true → Judgeable program process task)
            ∧ task.within ((taskSweep program process).visit τ task.taskInstanceId) = next :=
        fun next => refreshTask_eq_ok hids htask
      constructor
      · rintro ⟨next, hnextTask, h⟩
        obtain ⟨hjudge, rfl⟩ := (hturn next).mp hnextTask
        obtain ⟨hall, hresult⟩ := hnext.mp h
        exact ⟨⟨hjudge, hall⟩, hresult⟩
      · rintro ⟨⟨hjudge, hall⟩, hresult⟩
        exact ⟨_, (hturn _).mpr ⟨hjudge, rfl⟩, hnext.mpr ⟨hall, hresult⟩⟩

end Sgos

end SingularityFlow
