/-
# The status of a finished process

A JOIN can tolerate a branch that failed, and the END tasks after it succeed
all the same.  The process does not: it succeeds only when every task has, and
a finished process keeps the outcome of its worst task.

So the terminal conditions of the Program, which ask for the END tasks alone,
are necessary for the status `succeeded` and not sufficient
(`update_outcome`, `failed_toleratedBranch`).
-/
import SingularityFlow.Sgos.StatusOrder

namespace SingularityFlow

open Ecma

namespace Sgos

variable {tables : UnicodeTables} {assertProgram : Program → Except Failure Unit}
  {program : Program} {process : Process} {runtime result : Runtime}

def isEnd (program : Program) (task : Task) : Bool :=
  (program.template task.taskTemplateId).any (·.opcode = .end)

/-- Each END task has succeeded, and there is one. -/
structure TerminalConditionsHold (program : Program) (process : Process) : Prop where
  some : ∃ task ∈ process.taskInstances, isEnd program task = true
  all : ∀ task ∈ process.taskInstances, isEnd program task = true → task.state = .succeeded

/-! ## What the pass changes -/

/-- A task before and after the pass. -/
structure Refreshed (before after : Task) : Prop where
  template : after.taskTemplateId = before.taskTemplateId
  kept : startable before = false → after = before
  judged : startable before = true → after.state = .blocked ∨ after.state = .ready
    ∨ after.state = .waiting

theorem refreshed_of_refreshTask {task next : Task}
    (h : refreshTask program process task = .ok next) : Refreshed task next := by
  unfold refreshTask at h
  split at h
  · next hstart =>
    obtain ⟨readiness, -, h⟩ := bind_eq_ok_iff.mp h
    obtain rfl := Except.ok.inj h
    refine ⟨rfl, fun hclosed => absurd hstart (by simp [hclosed]), fun _ => ?_⟩
    rw [nextState]
    split
    · exact .inl rfl
    · split
      · exact .inr (.inl rfl)
      · exact .inr (.inr rfl)
  · next hclosed =>
    obtain rfl := Except.ok.inj h
    exact ⟨rfl, fun _ => rfl, fun hstart => absurd hstart hclosed⟩

theorem refreshTasks_forall₂ : ∀ (rest visited : List Task) {tasks : List Task},
    refreshTasks program process visited rest = .ok tasks →
    ∃ refreshed, tasks = visited ++ refreshed ∧ List.Forall₂ Refreshed rest refreshed
  | [], visited, tasks, h => ⟨[], by simpa using (Except.ok.inj h).symm, .nil⟩
  | task :: rest, visited, tasks, h => by
      obtain ⟨next, hnext, h⟩ := bind_eq_ok_iff.mp h
      obtain ⟨refreshed, rfl, hall⟩ := refreshTasks_forall₂ rest (visited ++ [next]) h
      exact ⟨next :: refreshed, by simp, .cons (refreshed_of_refreshTask hnext) hall⟩

/-- No task succeeds, or ceases to, by being judged. -/
theorem Refreshed.succeeded_iff {before after : Task} (h : Refreshed before after) :
    after.state = .succeeded ↔ before.state = .succeeded := by
  cases hstart : startable before with
  | false => rw [h.kept hstart]
  | true =>
      have hbefore : before.state ≠ .succeeded := by
        intro hsucceeded
        rw [startable, hsucceeded] at hstart
        cases hstart
      rcases h.judged hstart with hstate | hstate | hstate <;> simp [hstate, hbefore]

/-- A task that is not pending keeps its state. -/
theorem Refreshed.eq_of_terminal {before after : Task} (h : Refreshed before after)
    (hterminal : isSgosTerminalTaskState before.state = true) : after = before := by
  refine h.kept ?_
  cases hstate : before.state <;> simp_all [startable, isSgosTerminalTaskState]

section Tasks

variable {before after : List Task}

theorem all_succeeded_iff (h : List.Forall₂ Refreshed before after) :
    (∀ task ∈ after, task.state = .succeeded) ↔ ∀ task ∈ before, task.state = .succeeded := by
  induction h with
  | nil => rfl
  | cons hone _ ih => rw [List.forall_mem_cons, List.forall_mem_cons, hone.succeeded_iff, ih]

theorem eq_of_all_terminal (h : List.Forall₂ Refreshed before after)
    (hall : ∀ task ∈ before, isSgosTerminalTaskState task.state = true) : after = before := by
  induction h with
  | nil => rfl
  | cons hone _ ih =>
      rw [List.forall_mem_cons] at hall
      rw [hone.eq_of_terminal hall.1, ih hall.2]

theorem exists_end_iff (h : List.Forall₂ Refreshed before after) :
    (∃ task ∈ after, isEnd program task = true) ↔ ∃ task ∈ before, isEnd program task = true := by
  induction h with
  | nil => rfl
  | cons hone _ ih =>
      rw [List.exists_mem_cons_iff, List.exists_mem_cons_iff, ih, isEnd, isEnd, hone.template]

theorem all_end_succeeded_iff (h : List.Forall₂ Refreshed before after) :
    (∀ task ∈ after, isEnd program task = true → task.state = .succeeded)
      ↔ ∀ task ∈ before, isEnd program task = true → task.state = .succeeded := by
  induction h with
  | nil => rfl
  | cons hone _ ih =>
      rw [List.forall_mem_cons, List.forall_mem_cons, ih, isEnd, isEnd, hone.template,
        hone.succeeded_iff]

end Tasks

/-! ## The status -/

/-- The outcome of a process whose tasks have all ended: that of its worst task. -/
def worstOutcome (process : Process) : ProcessStatus :=
  if someTask process .cancelled then .cancelled
  else if someTask process .blocked then .blocked
  else if someTask process .failed then .failed
  else if process.taskInstances.all (·.state = .succeeded) then .succeeded
  else .blocked

/-- What an update leaves, in a process that is neither paused nor finished. -/
structure Outcome (program : Program) (runtime result : Runtime) : Prop where
  conditions : TerminalConditionsHold program result.toProcess
    ↔ TerminalConditionsHold program runtime.toProcess
  succeeded : result.status = .succeeded ↔ TerminalConditionsHold program runtime.toProcess
    ∧ runtime.activeExecutions = [] ∧ runtime.openHumanRequests = []
    ∧ ∀ task ∈ runtime.taskInstances, task.state = .succeeded
  finished : TerminalConditionsHold program runtime.toProcess → runtime.activeExecutions = [] →
    runtime.openHumanRequests = [] →
    (∀ task ∈ runtime.taskInstances, isSgosTerminalTaskState task.state = true) →
    result.status = worstOutcome runtime.toProcess

theorem someTask_iff {state : TaskState} :
    someTask process state = true ↔ ∃ task ∈ process.taskInstances, task.state = state := by
  rw [someTask, List.any_eq_true]
  simp only [decide_eq_true_eq]

theorem quietStatus_succeeded_iff : quietStatus program process = .succeeded ↔
    (∀ task ∈ process.taskInstances, task.state = .succeeded)
      ∧ endSucceeded program process = true := by
  have hnone : ∀ {state}, state ≠ TaskState.succeeded →
      (∀ task ∈ process.taskInstances, task.state = .succeeded) →
      someTask process state = false := by
    intro state hstate hall
    rw [Bool.eq_false_iff, ne_eq, someTask_iff]
    rintro ⟨task, htask, rfl⟩
    exact hstate (hall task htask)
  constructor
  · intro h
    unfold quietStatus at h
    split at h
    · cases h
    split at h
    · cases h
    split at h
    · cases h
    split at h
    · next hall =>
      refine ⟨by simpa using hall, ?_⟩
      by_contra hend
      rw [if_neg hend] at h
      cases h
    · cases h
  · rintro ⟨hall, hend⟩
    rw [quietStatus, hnone (by simp) hall, hnone (by simp) hall, hnone (by simp) hall, hend]
    simpa using hall

theorem quietStatus_eq_worstOutcome (h : endSucceeded program process = true) :
    quietStatus program process = worstOutcome process := by
  rw [quietStatus, worstOutcome, h, if_pos rfl]

theorem endSucceeded_of_conditions (h : TerminalConditionsHold program process) :
    endSucceeded program process = true := by
  obtain ⟨task, htask, hend⟩ := h.some
  refine List.any_eq_true.mpr ⟨task, htask, ?_⟩
  rw [Bool.and_eq_true]
  exact ⟨hend, decide_eq_true (h.all task htask hend)⟩

theorem conditions_of_all_succeeded
    (hall : ∀ task ∈ process.taskInstances, task.state = .succeeded)
    (hend : endSucceeded program process = true) : TerminalConditionsHold program process := by
  obtain ⟨task, htask, h⟩ := List.any_eq_true.mp hend
  exact ⟨⟨task, htask, (Bool.and_eq_true _ _ ▸ h).1⟩, fun task htask _ => hall task htask⟩

theorem readyNow_nil_of_terminal
    (h : ∀ task ∈ process.taskInstances, isSgosTerminalTaskState task.state = true) :
    process.taskInstances.filter (readyNow program process) = [] := by
  refine List.filter_eq_nil_iff.mpr fun task htask hready => ?_
  have hstart : startable task = true := (Bool.and_eq_true _ _ ▸ hready).1
  exact not_taskFinal_of_pending hstart (h task htask)

/-- Where nothing is running or asked, and all tasks have ended, the status is
the quiet one. -/
theorem nextStatus_of_terminal {status : ProcessStatus}
    (hopen : ¬ (runtime.status = .paused ∨ processTerminal runtime.status = true))
    (hactive : runtime.activeExecutions = []) (hasked : runtime.openHumanRequests = [])
    (hall : ∀ task ∈ runtime.taskInstances, isSgosTerminalTaskState task.state = true)
    (h : nextStatus tables assertProgram program runtime = .ok status) :
    status = quietStatus program runtime.toProcess := by
  have hrecovery : someTask runtime.toProcess .recoveryRequired = false := by
    rw [Bool.eq_false_iff, ne_eq, someTask_iff]
    rintro ⟨task, htask, hstate⟩
    have := hall task htask
    rw [hstate] at this
    cases this
  rw [nextStatus, if_neg hopen, hrecovery, if_neg Bool.false_ne_true,
    if_neg (not_not.mpr hactive)] at h
  obtain ⟨plan, hplan, h⟩ := bind_eq_ok_iff.mp h
  have hempty : plan = [] := (readySet_spec hactive hplan).2.mpr (readyNow_nil_of_terminal hall)
  rw [if_neg (not_not.mpr hempty), if_neg (not_not.mpr hasked)] at h
  exact (Except.ok.inj h).symm

theorem nextStatus_succeeded_iff {status : ProcessStatus}
    (hopen : ¬ (runtime.status = .paused ∨ processTerminal runtime.status = true))
    (h : nextStatus tables assertProgram program runtime = .ok status) :
    status = .succeeded ↔ runtime.activeExecutions = [] ∧ runtime.openHumanRequests = []
      ∧ (∀ task ∈ runtime.taskInstances, task.state = .succeeded)
      ∧ endSucceeded program runtime.toProcess = true := by
  constructor
  · rintro rfl
    rw [nextStatus, if_neg hopen] at h
    split at h
    · cases h
    split at h
    · cases h
    next hactive =>
    obtain ⟨plan, -, h⟩ := bind_eq_ok_iff.mp h
    split at h
    · cases h
    split at h
    · cases h
    next hasked =>
    exact ⟨not_not.mp hactive, not_not.mp hasked, quietStatus_succeeded_iff.mp (Except.ok.inj h)⟩
  · rintro ⟨hactive, hasked, hall, hend⟩
    rw [nextStatus_of_terminal hopen hactive hasked
      (fun task htask => by rw [hall task htask]; rfl) h]
    exact quietStatus_succeeded_iff.mpr ⟨hall, hend⟩

/-- **The status after an update.**  It is `succeeded` when every task has
succeeded; where only the END tasks have, it is the outcome of the worst. -/
theorem update_outcome
    (h : updateSgosReadinessAndStatus tables assertProgram program runtime = .ok result)
    (hopen : ¬ (runtime.status = .paused ∨ processTerminal runtime.status = true)) :
    Outcome program runtime result := by
  obtain ⟨tasks, htasks, h⟩ := bind_eq_ok_iff.mp h
  obtain ⟨status, hstatus, h⟩ := bind_eq_ok_iff.mp h
  obtain rfl := Except.ok.inj h
  obtain ⟨refreshed, heq, hall⟩ := refreshTasks_forall₂ _ _ htasks
  rw [List.nil_append] at heq
  subst heq
  have hconditions : ∀ next, TerminalConditionsHold program
        { runtime.toProcess with taskInstances := tasks, status := next }
      ↔ TerminalConditionsHold program runtime.toProcess :=
    fun _ => ⟨fun h => ⟨(exists_end_iff hall).mp h.some, (all_end_succeeded_iff hall).mp h.all⟩,
      fun h => ⟨(exists_end_iff hall).mpr h.some, (all_end_succeeded_iff hall).mpr h.all⟩⟩
  refine ⟨hconditions _, ?_, fun hterminal hactive hasked hended => ?_⟩
  · have hiff := @nextStatus_succeeded_iff tables assertProgram program
      { runtime with taskInstances := tasks } status hopen hstatus
    refine hiff.trans ⟨?_, ?_⟩
    · rintro ⟨hactive, hasked, hsucceeded, hend⟩
      have hbefore := (all_succeeded_iff hall).mp hsucceeded
      exact ⟨(hconditions _).mp (conditions_of_all_succeeded hsucceeded hend), hactive, hasked, hbefore⟩
    · rintro ⟨hterminal, hactive, hasked, hsucceeded⟩
      exact ⟨hactive, hasked, (all_succeeded_iff hall).mpr hsucceeded,
        endSucceeded_of_conditions ((hconditions _).mpr hterminal)⟩
  · obtain rfl : tasks = runtime.taskInstances := eq_of_all_terminal hall hended
    have hquiet : status = quietStatus program runtime.toProcess :=
      nextStatus_of_terminal hopen hactive hasked hended hstatus
    exact hquiet.trans <| quietStatus_eq_worstOutcome (endSucceeded_of_conditions hterminal)

/-! ## A branch that a JOIN tolerates -/

/-- Three tasks, a quorum of two of them, and the END. -/
def quorumProgram : Program :=
  let template (id : String) (opcode : Opcode) : Template :=
    ⟨js id, opcode, ⟨[], [], [], []⟩, ⟨[], none, false⟩⟩
  ⟨[template "alpha" .noop, template "beta" .noop, template "gamma" .kernel, template "join" .join,
      template "end" .end],
    [⟨some (js "join"), none, some (js "quorum"), none,
      some [js "alpha", js "beta", js "gamma"], none, some 2, none, none, none⟩]⟩

/-- The quorum is reached, one branch has ended so, and the END has succeeded. -/
def quorumReached (gamma : TaskState) (status : ProcessStatus) : Runtime :=
  let task (id : String) (state : TaskState) (predecessors : List Text) : Task :=
    ⟨js id, js id, state, [], predecessors, none⟩
  { status := status, activeExecutions := [], openHumanRequests := [],
    taskInstances := [task "alpha" .succeeded [], task "beta" .succeeded [], task "gamma" gamma [],
      task "join" .succeeded [js "alpha", js "beta", js "gamma"],
      task "end" .succeeded [js "join"]] }

theorem update_quorumReached :
    updateSgosReadinessAndStatus asciiTables (fun _ => .ok ()) quorumProgram
      (quorumReached .succeeded .running) = .ok (quorumReached .succeeded .succeeded) := rfl

theorem update_outcome_quorum :
    Outcome quorumProgram (quorumReached .succeeded .running)
      (quorumReached .succeeded .succeeded) :=
  update_outcome update_quorumReached (by decide)

/-- The failed branch was not needed, and the process fails. -/
theorem failed_toleratedBranch :
    TerminalConditionsHold quorumProgram (quorumReached .failed .running).toProcess
      ∧ updateSgosReadinessAndStatus asciiTables (fun _ => .ok ()) quorumProgram
          (quorumReached .failed .running) = .ok (quorumReached .failed .failed)
      ∧ (quorumReached .failed .failed).status ≠ .succeeded :=
  ⟨⟨⟨_, List.mem_of_getElem? (i := 4) rfl, rfl⟩, by decide⟩, rfl, by decide⟩

end Sgos

end SingularityFlow
