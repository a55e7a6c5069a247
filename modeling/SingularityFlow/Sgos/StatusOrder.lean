/-
# The update of a process and the order of its tasks

The tasks of a process stand in no order that means something.  But the pass
over them changes some while it judges others, so what it leaves can depend
on the order, and a second pass can change it again.

It leaves a fixed outcome exactly if no pending task is judged otherwise once
the tasks that are impossible already count as blocked (`fixedOutcome_iff`).
A JOIN that stands before a JOIN it waits for, and that cannot succeed any
more, is the case in which it is (`movingOutcome_joins`).
-/
import SingularityFlow.Sgos.Status
import SingularityFlow.Sgos.Dispatch

namespace SingularityFlow

open Ecma

namespace Sgos

variable {program : Program} {process process' : Process} {task : Task} {σ τ : Text → TaskState}

/-! ## Other orders of the tasks -/

section Order

variable (hids : process.ids.Nodup) (hperm : process'.taskInstances.Perm process.taskInstances)

theorem ids_perm {process process' : Process}
    (hperm : process'.taskInstances.Perm process.taskInstances) : process'.ids.Perm process.ids :=
  hperm.map _

include hids hperm

theorem task_perm (id : Text) : process'.task id = process.task id := by
  have hids' : process'.ids.Nodup := (ids_perm hperm).nodup_iff.mpr hids
  cases h : process.task id with
  | none =>
      rw [Process.task, List.find?_eq_none] at h ⊢
      exact fun task htask => h task (hperm.subset htask)
  | some task =>
      have hid : task.taskInstanceId = id := by simpa using List.find?_some h
      exact hid ▸ task_of_mem hids' (hperm.symm.subset (List.mem_of_find?_eq_some h))

theorem stateOf_perm : process'.stateOf = process.stateOf := by
  funext id
  rw [Process.stateOf, Process.stateOf, task_perm hids hperm]

omit hids in
theorem withStates_perm (σ : Text → TaskState) :
    (process'.withStates σ).taskInstances.Perm (process.withStates σ).taskInstances :=
  hperm.map _

/-- The order of the tasks is nothing to the readiness of a task. -/
theorem readiness_perm (task : Task) :
    sgosTaskReadiness program process' task = sgosTaskReadiness program process task := by
  have hpredecessors : predecessorStates process' task = predecessorStates process task := by
    unfold predecessorStates
    simp only [task_perm hids hperm]
  have hall : ∀ p : Task → Bool, process'.taskInstances.all p = process.taskInstances.all p :=
    fun p => hperm.all_eq
  unfold sgosTaskReadiness
  simp only [hpredecessors, hall]

theorem taskSweep_perm : taskSweep program process' = taskSweep program process := by
  have hverdict : verdictAt program process' = verdictAt program process := by
    funext σ id
    have hids' : (process.withStates σ).ids.Nodup := by rwa [ids_withStates]
    simp only [verdictAt, task_perm hids hperm,
      readiness_perm hids' (withStates_perm hperm σ)]
  rw [taskSweep, taskSweep, hverdict]

end Order

/-! ## The ready set -/

/-- A startable task that is ready. -/
def readyNow (program : Program) (process : Process) (task : Task) : Bool :=
  startable task && match sgosTaskReadiness program process task with
    | .ok readiness => readiness.ready
    | .error _ => false

theorem zip_filter_of_sequence {β : Type} {f : β → Except Failure Readiness} :
    ∀ {l : List β} {as : List Readiness}, sequence (l.map f) = .ok as →
      ((l.zip as).filter fun p => p.2.ready).map Prod.fst
        = l.filter fun b => match f b with | .ok readiness => readiness.ready | .error _ => false
  | [], as, _ => by simp
  | b :: l, as, h => by
      have hall := sequence_eq_ok h
      cases as with
      | nil => cases hall
      | cons a as =>
          obtain ⟨hb, hl⟩ := List.cons.inj hall
          have hrest : sequence (l.map f) = .ok as := by rw [hl]; exact sequence_ok as
          have ih := zip_filter_of_sequence hrest
          cases hready : a.ready <;> simp [hb, hready, ih]

/-- Every startable task can be judged. -/
def Judged (program : Program) (process : Process) : Prop :=
  ∀ task ∈ process.taskInstances, startable task = true →
    ∃ readiness, sgosTaskReadiness program process task = .ok readiness

/-- The ready tasks, where all startable ones can be judged. -/
theorem readyTasks_eq_ok {tasks : List Task} : readyTasks program process = .ok tasks ↔
    Judged program process ∧ tasks = process.taskInstances.filter (readyNow program process) := by
  have hjudged : Judged program process ↔ ∃ readiness,
      sequence ((process.taskInstances.filter startable).map (sgosTaskReadiness program process))
        = .ok readiness := by
    rw [exists_sequence_iff]
    simp only [Judged, List.mem_filter, and_imp]
  rw [readyTasks, bind_eq_ok_iff, hjudged]
  constructor
  · rintro ⟨readiness, hok, h⟩
    refine ⟨⟨readiness, hok⟩, (Except.ok.inj h).symm.trans ?_⟩
    rw [zip_filter_of_sequence hok, List.filter_filter]
    exact List.filter_congr fun _ _ => Bool.and_comm ..
  · rintro ⟨⟨readiness, hok⟩, rfl⟩
    refine ⟨readiness, hok, congrArg Except.ok ?_⟩
    rw [zip_filter_of_sequence hok, List.filter_filter]
    exact List.filter_congr fun _ _ => Bool.and_comm ..

variable {tables : UnicodeTables} {assertProgram : Program → Except Failure Unit}

theorem memberships_of_candidate {c : Candidate} (h : candidate tables program task = .ok c) :
    ∀ membership ∈ c.memberships, 1 ≤ membership.maximumParallel := by
  unfold candidate at h
  split at h
  · cases h
  simp only [taskFanoutMemberships, bind_eq_ok_iff, failIf_eq_ok_iff, exists_const,
    Except.ok.injEq] at h
  obtain ⟨_, -, memberships, ⟨hvalid, -, rfl⟩, rfl⟩ := h
  intro membership hmem
  by_contra hsmall
  refine hvalid (List.any_eq_true.mpr ⟨membership, hmem, ?_⟩)
  simp only [Bool.or_eq_true, decide_eq_true_eq]
  omega

/-- With one slot, and nothing running, the first task is chosen. -/
theorem selectTasks_one {ordered : List Candidate}
    (h : ∀ c ∈ ordered, ∀ membership ∈ c.memberships, 1 ≤ membership.maximumParallel) :
    selectTasks tables [] 1 [] ordered = .ok (ordered.take 1) := by
  cases ordered with
  | nil => rfl
  | cons next rest =>
      have hfree : fanoutBlocked [] [] next = false := by
        rw [← Bool.not_eq_true, fanoutBlocked_iff]
        rintro ⟨membership, hmem, -, hfull⟩
        have := h next (List.mem_cons_self ..) membership hmem
        simp only [List.append_nil, groupItems, List.flatMap_nil, List.filter_nil, List.map_nil,
          distinct, List.length_nil] at hfull
        omega
      cases rest <;> simp [selectTasks, someM, hfree, bind, Except.bind]

theorem activeTasks_nil (h : process.activeExecutions = []) : activeTasks process = [] := by
  rw [activeTasks, h]
  simp

/-- What it takes to work out the ready set of a process in which nothing is
running. -/
structure Plannable (tables : UnicodeTables) (assertProgram : Program → Except Failure Unit)
    (program : Program) (process : Process) : Prop where
  contract : assertProgram program = .ok ()
  templates : checkTemplates process [] program.templates = .ok ()
  judged : Judged program process
  candidates : ∀ task ∈ process.taskInstances, readyNow program process task = true →
    ∃ c, candidate tables program task = .ok c

theorem selectTasks_ready {tasks : List Task} {ready : List Candidate}
    (h : sequence (tasks.map (candidate tables program)) = .ok ready) :
    selectTasks tables [] 1 [] (ready.insertionSort fun a b => taskOrder a.task b.task ≠ .gt)
      = .ok ((ready.insertionSort fun a b => taskOrder a.task b.task ≠ .gt).take 1) := by
  refine selectTasks_one fun c hc => ?_
  obtain ⟨task, -, hc⟩ := (mem_of_sequence h).mp ((List.mem_insertionSort _).mp hc)
  exact memberships_of_candidate hc

/-- The memberships of a template that are checked are those of the task that
is its only one, in whatever place it stands. -/
theorem checkTemplates_perm (hperm : process'.taskInstances.Perm process.taskInstances) :
    checkTemplates process' = checkTemplates process := by
  funext limits templates
  induction templates generalizing limits with
  | nil => rfl
  | cons template rest ih =>
      have hmatching := hperm.filter (·.taskTemplateId = template.taskTemplateId)
      rw [checkTemplates, checkTemplates]
      simp only [ih]
      generalize process'.taskInstances.filter _ = matching' at hmatching ⊢
      generalize process.taskInstances.filter _ = matching at hmatching ⊢
      rcases matching with _ | ⟨task, _ | ⟨other, rest⟩⟩
      · rw [hmatching.eq_nil]
      · rw [List.perm_singleton.mp hmatching]
      · have hlength := hmatching.length_eq
        rcases matching' with _ | ⟨_, _ | ⟨_, _⟩⟩
        · rfl
        · cases hlength
        · rfl

/-- The plan of a running process in which no task is active. -/
theorem dispatchPlan_idle (hactive : process.activeExecutions = []) :
    deterministicSgosDispatchPlan tables program { process with status := .running } 1 = (do
      checkTemplates process [] program.templates
      let tasks ← readyTasks program process
      let ready ← sequence (tasks.map (candidate tables program))
      let selected ← selectTasks tables [] 1 []
        (ready.insertionSort fun a b => taskOrder a.task b.task ≠ .gt)
      .ok (selected.map (·.planEntry))) := by
  have hnone : activeTasks { process with status := .running } = [] := activeTasks_nil hactive
  have htemplates : checkTemplates { process with status := .running } = checkTemplates process :=
    checkTemplates_perm (.refl _)
  rw [deterministicSgosDispatchPlan, hnone, htemplates]
  rfl

/-- The ready set is empty when no task is ready. -/
theorem readySet_spec (hactive : process.activeExecutions = []) {plan : List PlanEntry}
    (h : deterministicSgosReadySet tables assertProgram program
      { process with status := .running } = .ok plan) :
    Plannable tables assertProgram program process ∧
      (plan = [] ↔ process.taskInstances.filter (readyNow program process) = []) := by
  simp only [deterministicSgosReadySet, dispatchPlan_idle hactive, bind_eq_ok_iff] at h
  obtain ⟨_, hcontract, _, htemplates, tasks, htasks, ready, hready, selected, hselected, hplan⟩ := h
  obtain ⟨hjudged, rfl⟩ := readyTasks_eq_ok.mp htasks
  refine ⟨⟨hcontract, htemplates, hjudged, fun task htask hnow => ?_⟩, ?_⟩
  · exact exists_sequence_iff.mp ⟨_, hready⟩ task (List.mem_filter.mpr ⟨htask, hnow⟩)
  · rw [selectTasks_ready hready, Except.ok.injEq] at hselected
    rw [← Except.ok.inj hplan, ← hselected, ← List.length_eq_zero_iff, ← List.length_eq_zero_iff,
      ← length_of_sequence hready, List.length_map, List.length_take, List.length_insertionSort]
    omega

theorem exists_readySet (hactive : process.activeExecutions = [])
    (h : Plannable tables assertProgram program process) :
    ∃ plan, deterministicSgosReadySet tables assertProgram program
      { process with status := .running } = .ok plan := by
  obtain ⟨ready, hready⟩ := exists_sequence_iff.mpr fun task htask =>
    h.candidates task (List.mem_filter.mp htask).1 (List.mem_filter.mp htask).2
  simp only [deterministicSgosReadySet, dispatchPlan_idle hactive, bind_eq_ok_iff]
  exact ⟨_, (), h.contract, (), h.templates, _, readyTasks_eq_ok.mpr ⟨h.judged, rfl⟩, ready, hready,
    _, selectTasks_ready hready, rfl⟩

/-! ## The status in another order -/

section Order

variable (hids : process.ids.Nodup) (hperm : process'.taskInstances.Perm process.taskInstances)

include hids hperm

theorem readyNow_perm : readyNow program process' = readyNow program process := by
  funext task
  rw [readyNow, readyNow, readiness_perm hids hperm]

theorem Plannable.perm (h : Plannable tables assertProgram program process) :
    Plannable tables assertProgram program process' where
  contract := h.contract
  templates := by rw [checkTemplates_perm hperm]; exact h.templates
  judged task htask hstart := by
    rw [readiness_perm hids hperm]
    exact h.judged task (hperm.subset htask) hstart
  candidates task htask hnow := by
    rw [readyNow_perm hids hperm] at hnow
    exact h.candidates task (hperm.subset htask) hnow

end Order

theorem quietStatus_perm (hperm : process'.taskInstances.Perm process.taskInstances) :
    quietStatus program process' = quietStatus program process := by
  have hsome : ∀ state, someTask process' state = someTask process state := fun _ => hperm.any_eq
  have hend : endSucceeded program process' = endSucceeded program process := hperm.any_eq
  rw [quietStatus, quietStatus, hperm.all_eq, hend]
  simp only [hsome]

/-- The order of the tasks is nothing to the status. -/
theorem nextStatus_perm {runtime : Runtime} {tasks : List Task}
    (hids : runtime.toProcess.ids.Nodup) (hperm : tasks.Perm runtime.taskInstances)
    {status : ProcessStatus} (h : nextStatus tables assertProgram program runtime = .ok status) :
    nextStatus tables assertProgram program { runtime with taskInstances := tasks } = .ok status := by
  let other : Process := { runtime.toProcess with taskInstances := tasks }
  have hother : other.taskInstances.Perm runtime.toProcess.taskInstances := hperm
  have hrecovery : someTask other .recoveryRequired
      = someTask runtime.toProcess .recoveryRequired := hperm.any_eq
  unfold nextStatus at h ⊢
  simp only [show someTask { runtime.toProcess with taskInstances := tasks } .recoveryRequired = _
    from hrecovery]
  split
  · next hkeep => rw [if_pos hkeep] at h; exact h
  next hkeep =>
  rw [if_neg hkeep] at h
  split
  · next hsome => rw [if_pos hsome] at h; exact h
  next hsome =>
  rw [if_neg hsome] at h
  split
  · next hactive => rw [if_pos hactive] at h; exact h
  next hactive =>
  rw [if_neg hactive] at h
  rw [not_not] at hactive
  obtain ⟨plan, hplan, h⟩ := bind_eq_ok_iff.mp h
  obtain ⟨hplannable, hempty⟩ := readySet_spec hactive hplan
  have hactive' : other.activeExecutions = [] := hactive
  obtain ⟨plan', hplan'⟩ := exists_readySet hactive' (hplannable.perm hids hother)
  have hempty' := (readySet_spec hactive' hplan').2
  have hready : other.taskInstances.filter (readyNow program other) = []
      ↔ runtime.taskInstances.filter (readyNow program runtime.toProcess) = [] := by
    rw [readyNow_perm hids hother]
    have hfilter := hother.filter (readyNow program runtime.toProcess)
    exact ⟨fun hnil => (hnil ▸ hfilter.symm).eq_nil, fun hnil => (hnil ▸ hfilter).eq_nil⟩
  have hsame : plan' = [] ↔ plan = [] := hempty'.trans (hready.trans hempty.symm)
  refine bind_eq_ok_iff.mpr ⟨plan', hplan', ?_⟩
  have hquiet : quietStatus program other = quietStatus program runtime.toProcess :=
    quietStatus_perm hother
  simp only [ne_eq, hsame]
  rw [show quietStatus program { runtime.toProcess with taskInstances := tasks } = _ from hquiet]
  exact h

/-- The status that was found is found again. -/
theorem nextStatus_again {runtime : Runtime} {status : ProcessStatus}
    (h : nextStatus tables assertProgram program runtime = .ok status) :
    nextStatus tables assertProgram program { runtime with status := status } = .ok status := by
  by_cases hkeep : status = .paused ∨ processTerminal status = true
  · rw [nextStatus, if_pos hkeep]
  · unfold nextStatus at h ⊢
    rw [if_neg hkeep]
    split at h
    · next hbefore =>
        obtain rfl := Except.ok.inj h
        exact absurd hbefore hkeep
    · exact h

/-! ## One update -/

variable {runtime result : Runtime}

/-- The process with the states that the pass leaves. -/
def swept (program : Program) (process : Process) : Process :=
  process.withStates ((taskSweep program process).run process.ids process.stateOf)

/-- **The update**: the pass over the tasks, then the status. -/
theorem updateSgosReadinessAndStatus_eq_ok (hids : runtime.toProcess.ids.Nodup) :
    updateSgosReadinessAndStatus tables assertProgram program runtime = .ok result ↔
      (∀ task ∈ runtime.taskInstances, startable task = true →
        Judgeable program runtime.toProcess task) ∧
      ∃ status, nextStatus tables assertProgram program
          { runtime with taskInstances := (swept program runtime.toProcess).taskInstances }
            = .ok status ∧
        { runtime with taskInstances := (swept program runtime.toProcess).taskInstances,
                       status := status } = result := by
  have hsame : runtime.taskInstances.map (·.within runtime.toProcess.stateOf)
      = runtime.taskInstances :=
    congrArg Process.taskInstances (withStates_stateOf hids)
  have hstart : ∀ task ∈ runtime.taskInstances,
      pending (runtime.toProcess.stateOf task.taskInstanceId) = startable task := by
    intro task htask
    rw [Process.stateOf, task_of_mem hids htask]
    rfl
  have hloop : ∀ tasks, refreshTasks program runtime.toProcess [] runtime.taskInstances = .ok tasks
      ↔ (∀ task ∈ runtime.taskInstances, startable task = true →
          Judgeable program runtime.toProcess task) ∧
        tasks = (swept program runtime.toProcess).taskInstances := by
    intro tasks
    have h : refreshTasks program runtime.toProcess _ _ = .ok tasks ↔ _ :=
      refreshTasks_eq_ok hids [] runtime.taskInstances runtime.toProcess.stateOf rfl
    rw [hsame, List.map_nil] at h
    rw [h]
    refine and_congr_left fun _ => forall₂_congr fun task htask => ?_
    rw [hstart task htask]
  simp only [updateSgosReadinessAndStatus, bind_eq_ok_iff, hloop, Except.ok.injEq]
  constructor
  · rintro ⟨_, ⟨hjudge, rfl⟩, status, hstatus, h⟩
    exact ⟨hjudge, status, hstatus, h⟩
  · rintro ⟨hjudge, status, hstatus, h⟩
    exact ⟨_, ⟨hjudge, rfl⟩, status, hstatus, h⟩

/-! ## A fixed outcome -/

/-- The same states of tasks and the same status. -/
def SameOutcome (left right : Runtime) : Prop :=
  (∀ id, (left.toProcess.task id).map (·.state) = (right.toProcess.task id).map (·.state))
    ∧ left.status = right.status

/-- The outcome of the update does not depend on the order of the tasks, and a
second update leaves it. -/
structure FixedOutcome (tables : UnicodeTables) (assertProgram : Program → Except Failure Unit)
    (program : Program) (runtime result : Runtime) : Prop where
  order : ∀ tasks : List Task, tasks.Perm runtime.taskInstances → ∃ other,
    updateSgosReadinessAndStatus tables assertProgram program
      { runtime with taskInstances := tasks } = .ok other ∧ SameOutcome other result
  again : ∃ other, updateSgosReadinessAndStatus tables assertProgram program result = .ok other
    ∧ SameOutcome other result

/-- Impossible by the present states of the tasks. -/
def impossibleNow (program : Program) (process : Process) (task : Task) : Bool :=
  startable task && match sgosTaskReadiness program process task with
    | .ok readiness => readiness.impossible
    | .error _ => false

/-- The process with the tasks blocked that are impossible already. -/
def blockImpossible (program : Program) (process : Process) : Process :=
  { process with
    taskInstances := process.taskInstances.map fun task =>
      if impossibleNow program process task then { task with state := .blocked } else task }

/-- No pending task is judged otherwise once the impossible ones are blocked. -/
def SteadyVerdicts (program : Program) (process : Process) : Prop :=
  ∀ task ∈ process.taskInstances, startable task = true →
    (sgosTaskReadiness program (blockImpossible program process) task).map nextState
      = (sgosTaskReadiness program process task).map nextState

/-! ## The pass again -/

theorem stateOf_withStates {id : Text} (h : (process.task id).isSome = true) :
    (process.withStates σ).stateOf id = σ id := by
  obtain ⟨task, htask⟩ := Option.isSome_iff_exists.mp h
  have hid : task.taskInstanceId = id := by simpa using List.find?_some htask
  rw [Process.stateOf, task_withStates, htask, Option.map_some, Option.map_some, Option.getD_some,
    Task.within, hid]

theorem stateOf_of_none {id : Text} (h : process.task id = none) :
    process.stateOf id = .planned := by
  rw [Process.stateOf, h]
  rfl

theorem isSome_task_iff {id : Text} : (process.task id).isSome = true ↔ id ∈ process.ids := by
  rw [Process.task, List.find?_isSome, Process.ids, List.mem_map]
  simp only [decide_eq_true_eq]

theorem taskSweep_withStates (σ : Text → TaskState) :
    taskSweep program (process.withStates σ) = taskSweep program process := by
  have hverdict : verdictAt program (process.withStates σ) = verdictAt program process := by
    funext τ id
    rw [verdictAt, verdictAt, task_withStates, withStates_withStates]
    cases process.task id with
    | none => rfl
    | some task => rfl
  rw [taskSweep, taskSweep, hverdict]

/-- The states after the pass, as a function. -/
theorem stateOf_swept : (swept program process).stateOf
    = (taskSweep program process).run process.ids process.stateOf := by
  funext id
  by_cases hid : id ∈ process.ids
  · exact stateOf_withStates (isSome_task_iff.mpr hid)
  · have hnone : process.task id = none :=
      Option.not_isSome_iff_eq_none.mp fun h => hid (isSome_task_iff.mp h)
    have hnone' : (swept program process).task id = none := by
      rw [swept, task_withStates, hnone]
      rfl
    rw [Sweep.run_of_not_mem hid, stateOf_of_none hnone, stateOf_of_none hnone']

/-- A sweep that a second one does not change leaves the process for good. -/
theorem swept_swept (h : (taskSweep program process).run process.ids
      ((taskSweep program process).run process.ids process.stateOf)
        = (taskSweep program process).run process.ids process.stateOf) :
    swept program (swept program process) = swept program process := by
  rw [swept, stateOf_swept]
  rw [show taskSweep program (swept program process) = taskSweep program process
    from taskSweep_withStates _, show (swept program process).ids = process.ids from ids_withStates, h]
  exact withStates_withStates

/-- Another order of the tasks, for another order of their ids. -/
theorem exists_tasks_of_ids (hids : process.ids.Nodup) {order : List Text}
    (hperm : order.Perm process.ids) : ∃ tasks : List Task,
      tasks.Perm process.taskInstances ∧ tasks.map (·.taskInstanceId) = order := by
  have hself : process.ids.filterMap process.task = process.taskInstances := by
    rw [Process.ids, List.filterMap_map]
    have hsome : ∀ task ∈ process.taskInstances,
        (process.task ∘ Task.taskInstanceId) task = some task :=
      fun task htask => task_of_mem hids htask
    rw [List.filterMap_congr hsome, List.filterMap_some]
  refine ⟨order.filterMap process.task, hself ▸ hperm.filterMap process.task, ?_⟩
  rw [List.map_filterMap]
  have hsome : ∀ id ∈ order, (process.task id).map (·.taskInstanceId) = some id := by
    intro id hid
    obtain ⟨task, htask⟩ := Option.isSome_iff_exists.mp (isSome_task_iff.mpr (hperm.subset hid))
    have hfound : task.taskInstanceId = id := by simpa using List.find?_some htask
    rw [htask, Option.map_some, hfound]
  rw [List.filterMap_congr hsome, List.filterMap_some]

/-! ## Verdicts when the impossible tasks are blocked -/

section Steady

variable (hids : process.ids.Nodup)
  (hjudge : ∀ task ∈ process.taskInstances, startable task = true → Judgeable program process task)

theorem blockImpossible_withStates (σ : Text → TaskState) :
    (blockImpossible program process).withStates σ = process.withStates σ := by
  rw [Process.withStates, Process.withStates, blockImpossible, List.map_map]
  congr 1
  refine List.map_congr_left fun task _ => ?_
  rw [Function.comp_apply]
  split <;> rfl

include hids

theorem ids_blockImpossible : (blockImpossible program process).ids.Nodup := by
  have hsame : (blockImpossible program process).ids = process.ids := by
    rw [← @ids_withStates (blockImpossible program process) process.stateOf,
      blockImpossible_withStates, ids_withStates]
  rwa [hsame]

/-- The process with its impossible tasks blocked, by the states of its tasks. -/
theorem blockImpossible_eq : blockImpossible program process
    = process.withStates (blockImpossible program process).stateOf := by
  have h : (blockImpossible program process).withStates (blockImpossible program process).stateOf
      = process.withStates (blockImpossible program process).stateOf := blockImpossible_withStates _
  rw [← h, withStates_stateOf (ids_blockImpossible hids)]

theorem stateOf_blockImpossible (htask : task ∈ process.taskInstances) :
    (blockImpossible program process).stateOf task.taskInstanceId
      = if impossibleNow program process task then .blocked else task.state := by
  have hmem : (if impossibleNow program process task then { task with state := .blocked } else task)
      ∈ (blockImpossible program process).taskInstances := List.mem_map_of_mem htask
  have hfound := task_of_mem (ids_blockImpossible hids) hmem
  have hid : (if impossibleNow program process task then { task with state := TaskState.blocked }
      else task).taskInstanceId = task.taskInstanceId := by split <;> rfl
  rw [Process.stateOf, ← hid, hfound]
  split <;> rfl

/-- The verdict on a task by the present states. -/
theorem verdictAt_stateOf (htask : task ∈ process.taskInstances) {readiness : Readiness}
    (h : sgosTaskReadiness program process task = .ok readiness) :
    verdictAt program process process.stateOf task.taskInstanceId = nextState readiness := by
  refine verdictAt_of_ok hids htask ?_
  rwa [withStates_stateOf hids]

include hjudge

/-- Blocking the impossible tasks, and giving all pending tasks their verdicts,
make the same tasks final. -/
theorem together_cases (id : Text) :
    (taskSweep program process).together process.ids process.stateOf id
        = (blockImpossible program process).stateOf id ∨
      ¬ taskFinal ((taskSweep program process).together process.ids process.stateOf id)
        ∧ ¬ taskFinal ((blockImpossible program process).stateOf id) := by
  by_cases hid : id ∈ process.ids
  swap
  · have hnone : process.task id = none :=
      Option.not_isSome_iff_eq_none.mp fun h => hid (isSome_task_iff.mp h)
    have hnone' : (blockImpossible program process).task id = none := by
      rw [blockImpossible_eq hids, task_withStates, hnone]
      rfl
    exact .inl (by rw [Sweep.together, if_neg fun h => hid h.1, stateOf_of_none hnone,
      stateOf_of_none hnone'])
  obtain ⟨task, htask, rfl⟩ := List.mem_map.mp hid
  have hstate : process.stateOf task.taskInstanceId = task.state := by
    rw [Process.stateOf, task_of_mem hids htask]
    rfl
  rw [stateOf_blockImpossible hids htask, Sweep.together, hstate]
  cases hstart : startable task with
  | false =>
      have hpending : pending task.state = false := hstart
      left
      rw [if_neg (by simp [taskSweep, hpending]), impossibleNow, hstart]
      rfl
  | true =>
      have hpending : pending task.state = true := hstart
      obtain ⟨σ, _, hok⟩ := hjudge task htask hstart
      obtain ⟨rule, -, hrule⟩ := readiness_rule hok
      have hready := hrule process.stateOf
      rw [withStates_stateOf hids] at hready
      have hverdict : (taskSweep program process).next process.stateOf task.taskInstanceId
          = nextState (rule process.stateOf) := verdictAt_stateOf hids htask hready
      rw [if_pos ⟨hid, hpending⟩, hverdict, impossibleNow, hstart, hready]
      cases himpossible : (rule process.stateOf).impossible with
      | true => exact .inl (by simp [nextState, himpossible])
      | false =>
          right
          rw [nextState_final_iff, himpossible]
          exact ⟨by simp, by simpa [himpossible] using not_taskFinal_of_pending hpending⟩

/-- Verdicts are steady when the sweep is not affected by its own outcome. -/
theorem steadyVerdicts_iff : SteadyVerdicts program process
    ↔ (taskSweep program process).Unaffected process.ids process.stateOf := by
  have hsettles := taskSweep_settles program process
  have hsame : ∀ id, (taskSweep program process).next
        ((taskSweep program process).together process.ids process.stateOf) id
      = verdictAt program process (blockImpossible program process).stateOf id := by
    intro id
    refine hsettles.between (fun i hi => ?_) (fun i hi => ?_) rfl <;>
      rcases together_cases hids hjudge i with heq | ⟨hopen, hopen'⟩
    · exact heq
    · exact absurd hi hopen'
    · exact heq.symm
    · exact absurd hi hopen
  have hone : ∀ task ∈ process.taskInstances, startable task = true →
      ((sgosTaskReadiness program (blockImpossible program process) task).map nextState
          = (sgosTaskReadiness program process task).map nextState ↔
        (taskSweep program process).next
            ((taskSweep program process).together process.ids process.stateOf) task.taskInstanceId
          = (taskSweep program process).next process.stateOf task.taskInstanceId) := by
    intro task htask hstart
    obtain ⟨σ, _, hok⟩ := hjudge task htask hstart
    obtain ⟨rule, -, hrule⟩ := readiness_rule hok
    have hnow := hrule process.stateOf
    rw [withStates_stateOf hids] at hnow
    have hthen := hrule (blockImpossible program process).stateOf
    have hverdict := verdictAt_of_ok hids htask hthen
    rw [← blockImpossible_eq hids] at hthen
    have hverdict' : (taskSweep program process).next process.stateOf task.taskInstanceId
        = nextState (rule process.stateOf) := verdictAt_stateOf hids htask hnow
    rw [hsame, hverdict, hverdict', hthen, hnow]
    simp only [Except.map, Except.ok.injEq]
  constructor
  · intro h id hid hopen
    obtain ⟨task, htask, rfl⟩ := List.mem_map.mp hid
    have hstart : startable task = true := by
      rw [Process.stateOf, task_of_mem hids htask] at hopen
      exact hopen
    exact (hone task htask hstart).mp (h task htask hstart)
  · intro h task htask hstart
    refine (hone task htask hstart).mpr (h _ (List.mem_map_of_mem htask) ?_)
    rw [Process.stateOf, task_of_mem hids htask]
    exact hstart

end Steady

/-! ## The main result -/

theorem sameOutcome_of_perm {left right : Runtime} (hids : right.toProcess.ids.Nodup)
    (hperm : left.taskInstances.Perm right.taskInstances) (hstatus : left.status = right.status) :
    SameOutcome left right :=
  ⟨fun id => by rw [task_perm hids hperm], hstatus⟩

/-- The update in another order of the tasks, where the sweep does not mind. -/
theorem update_perm {tasks : List Task} (hids : runtime.toProcess.ids.Nodup)
    (hperm : tasks.Perm runtime.taskInstances)
    (hsweep : ∀ order : List Text, order.Perm runtime.toProcess.ids →
      (taskSweep program runtime.toProcess).run order runtime.toProcess.stateOf
        = (taskSweep program runtime.toProcess).run runtime.toProcess.ids runtime.toProcess.stateOf)
    (h : updateSgosReadinessAndStatus tables assertProgram program runtime = .ok result) :
    ∃ other, updateSgosReadinessAndStatus tables assertProgram program
      { runtime with taskInstances := tasks } = .ok other ∧ SameOutcome other result := by
  obtain ⟨hjudge, status, hstatus, rfl⟩ := (updateSgosReadinessAndStatus_eq_ok hids).mp h
  let other : Process := { runtime.toProcess with taskInstances := tasks }
  have hother : other.taskInstances.Perm runtime.toProcess.taskInstances := hperm
  have hids' : other.ids.Nodup := (ids_perm hother).nodup_iff.mpr hids
  have hsame : swept program other = other.withStates
      ((taskSweep program runtime.toProcess).run runtime.toProcess.ids
        runtime.toProcess.stateOf) := by
    rw [swept, taskSweep_perm hids hother, stateOf_perm hids hother,
      hsweep _ (ids_perm hother)]
  have hswept : (swept program other).taskInstances.Perm
      (swept program runtime.toProcess).taskInstances := by
    rw [hsame]
    exact withStates_perm hother _
  have hids'' : (swept program runtime.toProcess).ids.Nodup := by rwa [swept, ids_withStates]
  have hstatus' := @nextStatus_perm program tables assertProgram
    { runtime with taskInstances := (swept program runtime.toProcess).taskInstances } _ hids'' hswept
    status hstatus
  refine ⟨_, (updateSgosReadinessAndStatus_eq_ok hids').mpr
    ⟨fun task htask hstart => ?_, status, hstatus', rfl⟩, sameOutcome_of_perm hids'' hswept rfl⟩
  obtain ⟨σ, readiness, hok⟩ := hjudge task (hperm.subset htask) hstart
  refine ⟨σ, readiness, ?_⟩
  rwa [readiness_perm (by rwa [ids_withStates]) (withStates_perm hother σ)]

/-- The update once more, where the sweep finds nothing to change. -/
theorem update_again (hids : runtime.toProcess.ids.Nodup)
    (hsweep : (taskSweep program runtime.toProcess).run runtime.toProcess.ids
        ((taskSweep program runtime.toProcess).run runtime.toProcess.ids runtime.toProcess.stateOf)
      = (taskSweep program runtime.toProcess).run runtime.toProcess.ids runtime.toProcess.stateOf)
    (h : updateSgosReadinessAndStatus tables assertProgram program runtime = .ok result) :
    updateSgosReadinessAndStatus tables assertProgram program result = .ok result := by
  obtain ⟨hjudge, status, hstatus, rfl⟩ := (updateSgosReadinessAndStatus_eq_ok hids).mp h
  let next : Runtime := { runtime with
    taskInstances := (swept program runtime.toProcess).taskInstances, status := status }
  have htasks : next.taskInstances.Perm (swept program runtime.toProcess).taskInstances := .refl _
  have hids' : (swept program runtime.toProcess).ids.Nodup := by rwa [swept, ids_withStates]
  have hnext : next.toProcess.ids.Nodup := hids'
  -- the status of the process is nothing to the pass
  have hsame : (swept program next.toProcess).taskInstances = next.taskInstances := by
    have hself := congrArg Process.taskInstances (swept_swept hsweep)
    rw [swept, taskSweep_perm hids' htasks, stateOf_perm hids' htasks]
    exact hself
  refine (updateSgosReadinessAndStatus_eq_ok hnext).mpr ⟨fun task htask hstart => ?_, status, ?_, ?_⟩
  · obtain ⟨before, hbefore, rfl⟩ := List.mem_map.mp htask
    have hopen : pending (runtime.toProcess.stateOf before.taskInstanceId) = true := by
      by_contra hclosed
      have hkept : (taskSweep program runtime.toProcess).run runtime.toProcess.ids
          runtime.toProcess.stateOf before.taskInstanceId
            = runtime.toProcess.stateOf before.taskInstanceId :=
        Sweep.run_of_closed (Bool.not_eq_true _ ▸ hclosed)
      exact hclosed (hkept ▸ hstart)
    rw [Process.stateOf, task_of_mem hids hbefore] at hopen
    obtain ⟨σ, readiness, hok⟩ := hjudge before hbefore hopen
    have hstates : (swept program runtime.toProcess).withStates σ = runtime.toProcess.withStates σ :=
      withStates_withStates
    have hwhole : (next.toProcess.withStates σ).taskInstances
        = (runtime.toProcess.withStates σ).taskInstances :=
      (congrArg Process.taskInstances hstates :)
    refine ⟨σ, readiness, (readiness_perm ?_ (List.Perm.of_eq hwhole) before).trans hok⟩
    rwa [ids_withStates]
  · rw [show (swept program next.toProcess).taskInstances = next.taskInstances from hsame]
    exact @nextStatus_again program tables assertProgram
      { runtime with taskInstances := (swept program runtime.toProcess).taskInstances } status hstatus
  · rw [show (swept program next.toProcess).taskInstances = next.taskInstances from hsame]

/-- **The outcome of an update** is fixed exactly if no pending task is judged
otherwise once the tasks that are impossible already are blocked. -/
theorem fixedOutcome_iff (hids : runtime.toProcess.ids.Nodup)
    (h : updateSgosReadinessAndStatus tables assertProgram program runtime = .ok result) :
    FixedOutcome tables assertProgram program runtime result
      ↔ SteadyVerdicts program runtime.toProcess := by
  have hjudge := ((updateSgosReadinessAndStatus_eq_ok hids).mp h).1
  rw [steadyVerdicts_iff hids hjudge]
  have hsettles := taskSweep_settles program runtime.toProcess
  constructor
  · intro hfixed
    refine Sweep.unaffected_of_perm hsettles hids fun order horder => ?_
    obtain ⟨tasks, hperm, hmap⟩ := exists_tasks_of_ids hids horder
    obtain ⟨other, hother, hsame, -⟩ := hfixed.order tasks hperm
    obtain ⟨_, _, _, rfl⟩ := (updateSgosReadinessAndStatus_eq_ok hids).mp h
    let process : Process := { runtime.toProcess with taskInstances := tasks }
    have hprocess : process.taskInstances.Perm runtime.toProcess.taskInstances := hperm
    have hids' : process.ids.Nodup := (ids_perm hprocess).nodup_iff.mpr hids
    obtain ⟨_, _, _, rfl⟩ := (updateSgosReadinessAndStatus_eq_ok hids').mp hother
    have hrun : (taskSweep program runtime.toProcess).run order runtime.toProcess.stateOf
        = (swept program process).stateOf := by
      rw [stateOf_swept, taskSweep_perm hids hprocess, stateOf_perm hids hprocess]
      exact congrArg (fun ids => (taskSweep program runtime.toProcess).run ids _) hmap.symm
    rw [hrun, ← stateOf_swept]
    funext id
    exact congrArg (Option.getD · TaskState.planned) (hsame id)
  · intro hunaffected
    obtain ⟨horder, hagain⟩ := (Sweep.sweep_iff hsettles hids).mpr hunaffected
    exact ⟨fun tasks hperm => update_perm hids hperm horder h,
      _, update_again hids hagain h, fun _ => rfl, rfl⟩

/-! ## A JOIN that waits for a later one -/

/-- A Program of a task, a JOIN of it, and a JOIN of that. -/
def nestedJoins : Program :=
  let template (id : String) (opcode : Opcode) : Template :=
    ⟨js id, opcode, ⟨[], [], [], []⟩, ⟨[], none, false⟩⟩
  let join (id predecessor : String) : JoinDraft :=
    ⟨some (js id), none, some (js "all-success"), none, some [js predecessor], none, none, none, none,
      none⟩
  ⟨[template "work" .kernel, template "inner" .join, template "outer" .join, template "end" .end],
    [join "inner" "work", join "outer" "inner"]⟩

/-- The task has failed, and the outer JOIN stands before the inner one. -/
def outerFirst (outer inner : TaskState) (status : ProcessStatus) : Runtime :=
  let task (id : String) (state : TaskState) (predecessors : List Text) : Task :=
    ⟨js id, js id, state, [], predecessors, none⟩
  { status := status, activeExecutions := [], openHumanRequests := [],
    taskInstances := [task "work" .failed [], task "outer" outer [js "inner"],
      task "inner" inner [js "work"], task "end" .waiting [js "outer"]] }

theorem update_outerFirst :
    updateSgosReadinessAndStatus asciiTables (fun _ => .ok ()) nestedJoins
      (outerFirst .waiting .waiting .running) = .ok (outerFirst .waiting .blocked .blocked) := rfl

theorem fixedOutcome_iff_outerFirst :
    FixedOutcome asciiTables (fun _ => .ok ()) nestedJoins (outerFirst .waiting .waiting .running)
        (outerFirst .waiting .blocked .blocked)
      ↔ SteadyVerdicts nestedJoins (outerFirst .waiting .waiting .running).toProcess :=
  fixedOutcome_iff (by decide) update_outerFirst

/-- A second update blocks the outer JOIN as well, which the first has left
waiting. -/
theorem movingOutcome_outerFirst :
    updateSgosReadinessAndStatus asciiTables (fun _ => .ok ()) nestedJoins
        (outerFirst .waiting .waiting .running) = .ok (outerFirst .waiting .blocked .blocked)
      ∧ ¬ FixedOutcome asciiTables (fun _ => .ok ()) nestedJoins
        (outerFirst .waiting .waiting .running) (outerFirst .waiting .blocked .blocked) := by
  refine ⟨rfl, fun hfixed => ?_⟩
  obtain ⟨other, hother, hsame, -⟩ := hfixed.again
  have hagain : updateSgosReadinessAndStatus asciiTables (fun _ => .ok ()) nestedJoins
      (outerFirst .waiting .blocked .blocked) = .ok (outerFirst .blocked .blocked .blocked) := rfl
  obtain rfl := Except.ok.inj (hagain.symm.trans hother)
  exact absurd (hsame (js "outer")) (by decide)

end Sgos

end SingularityFlow
