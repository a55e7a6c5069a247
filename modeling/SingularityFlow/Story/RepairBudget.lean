/-
# Budgets of returned work

A phase can have a budget of attempts to repair it.  A return is charged to
one phase of the range that it reopens, which is found from the source and the
target.  The record of a budget counts for one generation of the phase that
resets it; nothing rewrites the record when that generation changes, so it is
compared when it is used, and replaced by an empty one when it is outdated.

`rejectPhase` works on a copy of the records and keeps the copy only after its
checkpoint was written.  The operations between two returns change phases as
they like, except for their budgets, which are pinned when the Story starts.
-/
import SingularityFlow.Errors
import SingularityFlow.Lib.Collections
import SingularityFlow.Lib.NumberText
import SingularityFlow.Lib.Run

namespace SingularityFlow

open Ecma

namespace RepairBudget

/-! ## The records -/

structure Policy where
  maxAttempts : Nat
  resetOnPhase : Option Text
deriving DecidableEq

inductive Verdict where
  | passed | failed
deriving DecidableEq

structure Phase where
  id : Text
  generation : Nat
  repairBudget : Option Policy
  validationVerdict : Option Verdict
  /-- `approvalPolicy?.rejectTo` -/
  rejectTo : Option (List Text)

structure Attempt where
  number : Nat
  targetPhase : Text
  actor : Text
  at' : Text
  changeRequestId : Text

/-- What is recorded of the budget of a phase. -/
structure Budget where
  phase : Text
  maximum : Nat
  resetPhase : Option Text
  resetGeneration : Nat
  attempts : List Attempt

structure ReworkLoop where
  from' : Text
  to' : Text
  maxAttempts : Nat
  resetOnPhase : Option Text

structure Workflow where
  workItemId : Text
  phaseOrder : List Text
  phases : List Phase
  reworkLoops : Option (List ReworkLoop)
  repairBudgets : Option (List (Text × Budget))

/-- `workflow.phases[id]` -/
def Workflow.phase (workflow : Workflow) (id : Text) : Option Phase :=
  workflow.phases.find? (·.id = id)

/-- `order.indexOf(id)` -/
def indexOf (order : List Text) (id : Text) : Option Nat :=
  if id ∈ order then some (order.idxOf id) else none

/-! ## Consuming an attempt -/

/-- An id that is there and not empty. -/
def truthy (id : Option Text) : Option Text := id.filter (· ≠ [])

/-- The generation that a budget counts for. -/
def Workflow.resetGeneration (workflow : Workflow) (policy : Policy) : Nat :=
  match (truthy policy.resetOnPhase).bind workflow.phase with
  | some phase => phase.generation
  | none => 0

/-- What a return brings. -/
structure Request where
  targetPhase : Text
  actor : Text
  at' : Text
  changeRequestId : Text
  sourcePhase : Option Phase

structure Receipt where
  budget : Budget
  resetRequested : Bool

/-- The way past an exhausted budget: a return to the phase that resets it. -/
def budgetResetRoute (workflow : Workflow) (policy : Policy) (request : Request) : Option Text := do
  let reset ← truthy policy.resetOnPhase
  let source ← request.sourcePhase
  let allowed := source.rejectTo.getD [source.id]
  let index ← indexOf workflow.phaseOrder reset
  let sourceIndex ← indexOf workflow.phaseOrder source.id
  if reset = request.targetPhase ∨ reset ∉ allowed ∨ sourceIndex < index then none
  else some (js "singularity-flow reject " ++ source.id ++ js " --work-id " ++ workflow.workItemId
    ++ js " --to " ++ reset ++ js " --reason <reason>")

/-- One more attempt. -/
def Budget.next (state : Budget) (request : Request) : Budget :=
  { state with attempts := state.attempts ++ [⟨state.attempts.length + 1, request.targetPhase,
    request.actor, request.at', request.changeRequestId⟩] }

def budgetExhausted (phase : Phase) (policy : Policy) (consumed : Nat)
    (resetCommand : Option Text) : Failure :=
  .singularityFlow (js "Phase '" ++ phase.id ++ js "' repair budget is exhausted ("
      ++ natText consumed ++ js "/" ++ natText policy.maxAttempts ++ js "). "
      ++ match resetCommand with
        | some command => js "Return the submission to '" ++ policy.resetOnPhase.getD []
            ++ js "' instead, which resets the budget once it has a new approved generation: "
            ++ command ++ js ". Otherwise ask the approvers for direction."
        | none => js "No allowed return resets it from here; ask the approvers for direction "
            ++ js "(approve the submission as it stands, or have a workflow maintainer change the "
            ++ js "budget for new Stories).")
    (some (js "REPAIR_BUDGET_EXHAUSTED"))

/-- The budget that a call works on: the recorded one, or a new one where none
is recorded for the generation. -/
def Workflow.budgetFor (workflow : Workflow) (phase : Phase) (policy : Policy) : Budget :=
  let fresh := ⟨phase.id, policy.maxAttempts, policy.resetOnPhase,
    workflow.resetGeneration policy, []⟩
  match mapGet (workflow.repairBudgets.getD []) phase.id with
  | none => fresh
  | some state =>
      if state.resetPhase ≠ policy.resetOnPhase
          ∨ state.resetGeneration ≠ workflow.resetGeneration policy then fresh
      else state

def Workflow.record (workflow : Workflow) (id : Text) (state : Budget) : Workflow :=
  { workflow with repairBudgets := some (mapSet (workflow.repairBudgets.getD []) id state) }

/-- The workflow as the call leaves it, also where it throws. -/
def consumeRepairAttempt (workflow : Workflow) (phase : Phase) (request : Request) :
    Workflow × Except Failure (Option Receipt) :=
  match phase.repairBudget with
  | none => (workflow, .ok none)
  | some policy =>
      let state := workflow.budgetFor phase policy
      if truthy policy.resetOnPhase = some request.targetPhase then
        (workflow.record phase.id state, .ok (some ⟨state, true⟩))
      else if policy.maxAttempts ≤ state.attempts.length then
        ({ workflow with repairBudgets := some (workflow.repairBudgets.getD []) },
          .error (budgetExhausted phase policy state.attempts.length
            (budgetResetRoute workflow policy request)))
      else
        let state := state.next request
        (workflow.record phase.id state, .ok (some ⟨state, false⟩))

/-! ## The phase that a return is charged to -/

def policyMismatch (sourceId targetId : Text) : Failure :=
  .singularityFlow (js "Declared rework loop '" ++ sourceId ++ js "' to '" ++ targetId
    ++ js "' differs from its pinned repair budget.") (some (js "REWORK_LOOP_POLICY_MISMATCH"))

/-- The budget that a declared loop asks of its target. -/
def ReworkLoop.policy (loop : ReworkLoop) : Policy := ⟨loop.maxAttempts, loop.resetOnPhase⟩

def repairBudgetPhaseForRejection (workflow : Workflow) (source : Phase) (targetId : Text) :
    Except Failure (Option Phase) :=
  match indexOf workflow.phaseOrder source.id, indexOf workflow.phaseOrder targetId with
  | some sourceIndex, some targetIndex =>
      if sourceIndex < targetIndex then .ok none
      else match (workflow.reworkLoops.getD []).find? fun loop =>
          loop.from' = source.id && loop.to' = targetId with
        | some declared =>
            match workflow.phase targetId with
            | some target =>
                if target.repairBudget = some declared.policy then .ok (some target)
                else .error (policyMismatch source.id targetId)
            | none => .error (policyMismatch source.id targetId)
        | none =>
            .ok <| ((((workflow.phaseOrder.take (sourceIndex + 1)).drop targetIndex).filterMap
              workflow.phase).filter fun phase => phase.repairBudget.isSome
                && (phase.id ≠ source.id || source.validationVerdict = some .failed)).getLast?
  | _, _ => .ok none

/-! ## Returns -/

/-- The part of `rejectPhase` that concerns the budget: it is consumed on a copy,
which is kept when the checkpoint was written. -/
def rejectPhase (workflow : Workflow) (source : Phase) (request : Request)
    (checkpoint : Except Failure Unit) : Except Failure (Workflow × Option Receipt) := do
  let budgetPhase ← repairBudgetPhaseForRejection workflow source request.targetPhase
  match budgetPhase with
  | none => do
      checkpoint
      .ok (workflow, none)
  | some phase => do
      let preview := { workflow with repairBudgets := some (workflow.repairBudgets.getD []) }
      let consumed := consumeRepairAttempt preview phase { request with sourcePhase := some source }
      let receipt ← consumed.2
      checkpoint
      .ok ({ workflow with repairBudgets := consumed.1.repairBudgets }, receipt)

/-! ## Runs -/

inductive Action where
  | reject (sourceId : Text) (request : Request) (checkpoint : Except Failure Unit)
  /-- What happens between two returns: phases are generated and validated anew,
  and the rest of the workflow changes. -/
  | change (phaseOrder : List Text) (reworkLoops : Option (List ReworkLoop))
      (generation : Text → Nat) (verdict : Text → Option Verdict)
      (rejectTo : Text → Option (List Text))

def step (workflow : Workflow) : Action → Except Failure Workflow
  | .reject sourceId request checkpoint =>
      match workflow.phase sourceId with
      | none => .error (.typeError (js "Cannot read properties of undefined (reading 'id')"))
      | some source => do
          let result ← rejectPhase workflow source request checkpoint
          .ok result.1
  | .change phaseOrder reworkLoops generation verdict rejectTo =>
      .ok { workflow with
        phaseOrder := phaseOrder
        reworkLoops := reworkLoops
        phases := workflow.phases.map fun phase => { phase with
          generation := generation phase.id
          validationVerdict := verdict phase.id
          rejectTo := rejectTo phase.id } }

/-- The budget of a phase. -/
def Workflow.policy (workflow : Workflow) (id : Text) : Option Policy :=
  (workflow.phase id).bind Phase.repairBudget

/-- The phase that an action is charged to, when it is a return to another phase
than the one that resets the budget. -/
def chargedTo (workflow : Workflow) : Action → Option Text
  | .reject sourceId request _ => do
      let source ← workflow.phase sourceId
      let phase ← (repairBudgetPhaseForRejection workflow source request.targetPhase).toOption.join
      let policy ← phase.repairBudget
      if truthy policy.resetOnPhase = some request.targetPhase then none else some phase.id
  | .change .. => none

/-! ## What a return does -/

theorem repairBudgetPhaseForRejection_eq_ok {workflow : Workflow} {source phase : Phase}
    {targetId : Text}
    (h : repairBudgetPhaseForRejection workflow source targetId = .ok (some phase)) :
    workflow.phase phase.id = some phase ∧ ∃ policy, phase.repairBudget = some policy := by
  have hfound : ∀ {id}, workflow.phase id = some phase → workflow.phase phase.id = some phase := by
    intro id hid
    have hkey : phase.id = id := by simpa using List.find?_some hid
    rw [hkey, hid]
  unfold repairBudgetPhaseForRejection at h
  split at h
  · split at h
    · cases h
    · split at h
      · next declared _ =>
          split at h
          · next target htarget =>
              split at h
              · next hpolicy =>
                  obtain rfl := Option.some.inj (Except.ok.inj h)
                  exact ⟨hfound htarget, _, hpolicy⟩
              · cases h
          · cases h
      · have hmem := List.mem_of_getLast? (Except.ok.inj h)
        rw [List.mem_filter, List.mem_filterMap, Bool.and_eq_true, Option.isSome_iff_exists] at hmem
        obtain ⟨⟨id, -, hid⟩, hbudget, -⟩ := hmem
        exact ⟨hfound hid, hbudget⟩
  · cases h

/-- **A return.**  It is charged to no budget; or it goes to the phase that resets
the budget, and consumes nothing; or it is one more attempt of a budget that is
not exhausted. -/
theorem rejectPhase_eq_ok {workflow after : Workflow} {source : Phase} {request : Request}
    {checkpoint : Except Failure Unit} {receipt : Option Receipt}
    (h : rejectPhase workflow source request checkpoint = .ok (after, receipt)) :
    (repairBudgetPhaseForRejection workflow source request.targetPhase = .ok none ∧ after = workflow)
    ∨ ∃ phase policy,
        repairBudgetPhaseForRejection workflow source request.targetPhase = .ok (some phase)
          ∧ phase.repairBudget = some policy
          ∧ ((truthy policy.resetOnPhase = some request.targetPhase
                ∧ after = workflow.record phase.id (workflow.budgetFor phase policy))
              ∨ (truthy policy.resetOnPhase ≠ some request.targetPhase
                ∧ (workflow.budgetFor phase policy).attempts.length < policy.maxAttempts
                ∧ after = workflow.record phase.id
                    ((workflow.budgetFor phase policy).next request))) := by
  obtain ⟨budgetPhase, hphase, h⟩ := bind_eq_ok_iff.mp h
  cases budgetPhase with
  | none =>
      obtain ⟨-, -, h⟩ := bind_eq_ok_iff.mp h
      exact .inl ⟨hphase, (Prod.mk.inj (Except.ok.inj h)).1.symm⟩
  | some phase =>
      obtain ⟨-, policy, hpolicy⟩ := repairBudgetPhaseForRejection_eq_ok hphase
      obtain ⟨receipt', hreceipt, h⟩ := bind_eq_ok_iff.mp h
      obtain ⟨-, -, h⟩ := bind_eq_ok_iff.mp h
      obtain ⟨rfl, rfl⟩ := Prod.mk.inj (Except.ok.inj h)
      refine .inr ⟨phase, policy, hphase, hpolicy, ?_⟩
      simp only [consumeRepairAttempt, hpolicy] at hreceipt ⊢
      by_cases hreset : truthy policy.resetOnPhase = some request.targetPhase
      · exact .inl ⟨hreset, by rw [if_pos hreset]; rfl⟩
      · rw [if_neg hreset] at hreceipt ⊢
        split at hreceipt
        · cases hreceipt
        · next hless => exact .inr ⟨hreset, Nat.lt_of_not_le hless, by rw [if_neg hless]; rfl⟩

/-! ## The budgets are pinned -/

theorem policy_record (workflow : Workflow) (id id' : Text) (state : Budget) :
    (workflow.record id state).policy id' = workflow.policy id' := rfl

theorem step_policy {s s' : Workflow} {a : Action} (h : step s a = .ok s') (id : Text) :
    s'.policy id = s.policy id := by
  cases a with
  | reject sourceId request checkpoint =>
      rw [step] at h
      split at h
      · cases h
      · obtain ⟨⟨after, receipt⟩, hreject, h⟩ := bind_eq_ok_iff.mp h
        obtain rfl := Except.ok.inj h
        rcases rejectPhase_eq_ok hreject with ⟨-, rfl⟩ | ⟨phase, policy, -, -, ⟨-, rfl⟩ | ⟨-, -, rfl⟩⟩
        · rfl
        · exact policy_record ..
        · exact policy_record ..
  | change phaseOrder reworkLoops generation verdict rejectTo =>
      obtain rfl := Except.ok.inj h
      simp only [Workflow.policy, Workflow.phase, List.find?_map, Function.comp_def,
        Option.bind_map]

theorem run_policy {start s : Workflow} {past : List (Workflow × Action)}
    (h : Run step start past s) (id : Text) : s.policy id = start.policy id := by
  induction h with
  | start => rfl
  | step _ hs ih => rw [step_policy hs, ih]

/-! ## Counting attempts -/

/-- The attempts that are recorded for a generation. -/
def Workflow.consumed (workflow : Workflow) (id : Text) (policy : Policy) (generation : Nat) : Nat :=
  match mapGet (workflow.repairBudgets.getD []) id with
  | none => 0
  | some state =>
      if state.resetPhase ≠ policy.resetOnPhase ∨ state.resetGeneration ≠ generation then 0
      else state.attempts.length

theorem length_budgetFor (workflow : Workflow) (phase : Phase) (policy : Policy) :
    (workflow.budgetFor phase policy).attempts.length
      = workflow.consumed phase.id policy (workflow.resetGeneration policy) := by
  unfold Workflow.budgetFor Workflow.consumed
  cases mapGet (workflow.repairBudgets.getD []) phase.id with
  | none => rfl
  | some state =>
      dsimp only
      split <;> rfl

/-- The budget that a call works on counts for the present generation. -/
theorem budgetFor_current (workflow : Workflow) (phase : Phase) (policy : Policy) :
    (workflow.budgetFor phase policy).resetPhase = policy.resetOnPhase
      ∧ (workflow.budgetFor phase policy).resetGeneration = workflow.resetGeneration policy := by
  unfold Workflow.budgetFor
  split
  · exact ⟨rfl, rfl⟩
  · split
    · exact ⟨rfl, rfl⟩
    · next h => exact ⟨not_not.mp (not_or.mp h).1, not_not.mp (not_or.mp h).2⟩

theorem consumed_record_self {workflow : Workflow} {id : Text} {policy : Policy} {state : Budget}
    {generation : Nat} (hphase : state.resetPhase = policy.resetOnPhase)
    (hgeneration : state.resetGeneration = generation) :
    (workflow.record id state).consumed id policy generation = state.attempts.length := by
  rw [Workflow.consumed, Workflow.record, Option.getD_some, mapGet_mapSet_self]
  exact if_neg (not_or.mpr ⟨not_not.mpr hphase, not_not.mpr hgeneration⟩)

theorem consumed_record_of_ne {workflow : Workflow} {id id' : Text} {policy : Policy}
    {state : Budget} {generation : Nat} (h : id' ≠ id) :
    (workflow.record id state).consumed id' policy generation
      = workflow.consumed id' policy generation := by
  rw [Workflow.consumed, Workflow.record, Option.getD_some, mapGet_mapSet_of_ne h]
  rfl

/-- **One step.**  A charged return adds one attempt to a budget that is not
exhausted.  Nothing else changes what is recorded for the present generation. -/
theorem step_consumed {s s' : Workflow} {a : Action} {id : Text} {policy : Policy}
    (h : step s a = .ok s') (hpolicy : s.policy id = some policy) :
    let consumed := fun w : Workflow => w.consumed id policy (s.resetGeneration policy)
    (chargedTo s a = some id ∧ consumed s < policy.maxAttempts ∧ consumed s' = consumed s + 1)
      ∨ (chargedTo s a ≠ some id ∧ consumed s' = consumed s) := by
  intro consumed
  cases a with
  | reject sourceId request checkpoint =>
      rw [step] at h
      split at h
      · cases h
      · next source hsource =>
          obtain ⟨⟨after, receipt⟩, hreject, h⟩ := bind_eq_ok_iff.mp h
          obtain rfl := Except.ok.inj h
          rcases rejectPhase_eq_ok hreject with ⟨hnone, rfl⟩ | ⟨phase, policy', hphase, hbudget, hcase⟩
          · exact .inr ⟨by simp [chargedTo, hsource, hnone, Except.toOption], rfl⟩
          · have hcharged : chargedTo s (.reject sourceId request checkpoint)
                = if truthy policy'.resetOnPhase = some request.targetPhase then none
                  else some phase.id := by
              simp [chargedTo, hsource, hphase, hbudget, Except.toOption]
            rw [hcharged]
            by_cases hid : phase.id = id
            · have hsame : policy' = policy := by
                rw [← hid, Workflow.policy, (repairBudgetPhaseForRejection_eq_ok hphase).1] at hpolicy
                exact Option.some.inj (hbudget.symm.trans hpolicy)
              subst hid hsame
              obtain ⟨hcurrent, hgeneration⟩ := budgetFor_current s phase policy'
              have hlength := length_budgetFor s phase policy'
              rcases hcase with ⟨hreset, rfl⟩ | ⟨hreset, hless, rfl⟩
              · refine .inr ⟨by simp [hreset], ?_⟩
                exact (consumed_record_self hcurrent hgeneration).trans hlength
              · refine .inl ⟨if_neg hreset, hlength.symm.trans_lt hless, ?_⟩
                have hnext : (s.record phase.id ((s.budgetFor phase policy').next request)).consumed
                    phase.id policy' (s.resetGeneration policy')
                    = ((s.budgetFor phase policy').next request).attempts.length :=
                  consumed_record_self hcurrent hgeneration
                refine hnext.trans ?_
                rw [Budget.next, List.length_append, hlength]
                rfl
            · have hne : id ≠ phase.id := fun he => hid he.symm
              refine .inr ⟨by split <;> simp [hid], ?_⟩
              rcases hcase with ⟨-, rfl⟩ | ⟨-, -, rfl⟩
              · exact consumed_record_of_ne hne
              · exact consumed_record_of_ne hne
  | change phaseOrder reworkLoops generation verdict rejectTo =>
      obtain rfl := Except.ok.inj h
      exact .inr ⟨by simp [chargedTo], rfl⟩

/-- **A window.**  While the generation of the phase that resets a budget stays
the same, the charged returns are at most the recorded attempts, and at most as
many as the budget allows. -/
theorem charged_le {start s : Workflow} {window older : List (Workflow × Action)} {id : Text}
    {policy : Policy} {generation : Nat} (h : Run step start (window ++ older) s)
    (hpolicy : start.policy id = some policy)
    (hsteady : ∀ entry ∈ window, entry.1.resetGeneration policy = generation) :
    window.countP (fun entry => chargedTo entry.1 entry.2 = some id)
        ≤ s.consumed id policy generation
      ∧ window.countP (fun entry => chargedTo entry.1 entry.2 = some id) ≤ policy.maxAttempts := by
  induction window generalizing s with
  | nil => exact ⟨Nat.zero_le _, Nat.zero_le _⟩
  | cons entry window ih =>
      cases h with
      | @step past before _ a hrun hstep =>
          obtain ⟨hgeneration, hsteady⟩ := List.forall_mem_cons.mp hsteady
          obtain ⟨hrecorded, hmaximum⟩ := ih hrun hsteady
          have hpinned : before.policy id = some policy := by rw [run_policy hrun, hpolicy]
          have hone := step_consumed hstep hpinned
          rw [show before.resetGeneration policy = generation from hgeneration] at hone
          rcases hone with ⟨hcharged, hless, hnext⟩ | ⟨hfree, hnext⟩
          · rw [List.countP_cons_of_pos (by simpa using hcharged)]
            dsimp only at hless hnext
            omega
          · rw [List.countP_cons_of_neg (by simpa using hfree)]
            dsimp only at hnext
            omega

/-! ## Numbers -/

/-- The attempts of a budget are numbered from one, without gaps. -/
def Budget.Numbered (state : Budget) : Prop :=
  state.attempts.map Attempt.number = List.range' 1 state.attempts.length

/-- Every recorded budget is. -/
def Numbered (workflow : Workflow) : Prop :=
  ∀ id state, mapGet (workflow.repairBudgets.getD []) id = some state → state.Numbered

theorem Budget.Numbered.next {state : Budget} (h : state.Numbered) (request : Request) :
    (state.next request).Numbered := by
  rw [Budget.Numbered, Budget.next, List.map_append, h, List.length_append, List.length_singleton,
    List.range'_concat]
  simp [Nat.add_comm]

theorem Numbered.budgetFor {workflow : Workflow} (h : Numbered workflow) (phase : Phase)
    (policy : Policy) : (workflow.budgetFor phase policy).Numbered := by
  unfold Workflow.budgetFor
  split
  · rfl
  · next state hstate =>
      split
      · rfl
      · exact h _ _ hstate

theorem Numbered.record {workflow : Workflow} (h : Numbered workflow) {id : Text} {state : Budget}
    (hstate : state.Numbered) : Numbered (workflow.record id state) := by
  intro id' state' hget
  rw [Workflow.record, Option.getD_some] at hget
  by_cases hid : id' = id
  · rw [hid, mapGet_mapSet_self] at hget
    exact Option.some.inj hget ▸ hstate
  · rw [mapGet_mapSet_of_ne hid] at hget
    exact h _ _ hget

theorem Numbered.step {s s' : Workflow} {a : Action} (hs : Numbered s) (h : step s a = .ok s') :
    Numbered s' := by
  cases a with
  | reject sourceId request checkpoint =>
      rw [RepairBudget.step] at h
      split at h
      · cases h
      · obtain ⟨⟨after, receipt⟩, hreject, h⟩ := bind_eq_ok_iff.mp h
        obtain rfl := Except.ok.inj h
        rcases rejectPhase_eq_ok hreject with ⟨-, rfl⟩ | ⟨phase, policy, -, -, ⟨-, rfl⟩ | ⟨-, -, rfl⟩⟩
        · exact hs
        · exact hs.record (hs.budgetFor ..)
        · exact hs.record ((hs.budgetFor ..).next _)
  | change phaseOrder reworkLoops generation verdict rejectTo =>
      obtain rfl := Except.ok.inj h
      exact hs

theorem run_numbered {start s : Workflow} {past : List (Workflow × Action)}
    (h : Run step start past s) (hstart : Numbered start) : Numbered s := by
  induction h with
  | start => exact hstart
  | step _ hs ih => exact ih.step hs

/-! ## What the budgets promise -/

/-- A return to the phase that resets the budget leaves the budget as it is for
the present generation, and the other budgets as they are recorded. -/
theorem rejectPhase_reset {workflow after : Workflow} {source phase : Phase} {request : Request}
    {checkpoint : Except Failure Unit} {receipt : Option Receipt} {policy : Policy}
    (h : rejectPhase workflow source request checkpoint = .ok (after, receipt))
    (hphase : repairBudgetPhaseForRejection workflow source request.targetPhase = .ok (some phase))
    (hpolicy : phase.repairBudget = some policy)
    (hreset : truthy policy.resetOnPhase = some request.targetPhase) :
    after.budgetFor phase policy = workflow.budgetFor phase policy
      ∧ ∀ id, id ≠ phase.id → mapGet (after.repairBudgets.getD []) id
          = mapGet (workflow.repairBudgets.getD []) id := by
  rcases rejectPhase_eq_ok h with ⟨hnone, -⟩ | ⟨phase', policy', hphase', hpolicy', hcase⟩
  · rw [hnone] at hphase
    cases hphase
  · obtain rfl := Option.some.inj (Except.ok.inj (hphase.symm.trans hphase'))
    obtain rfl := Option.some.inj (hpolicy.symm.trans hpolicy')
    rcases hcase with ⟨-, rfl⟩ | ⟨hnot, -⟩
    · refine ⟨?_, fun id hid => mapGet_mapSet_of_ne hid⟩
      obtain ⟨hcurrent, hgeneration⟩ := budgetFor_current workflow phase policy
      rw [Workflow.budgetFor, Workflow.record, Option.getD_some, mapGet_mapSet_self]
      exact if_neg (not_or.mpr ⟨not_not.mpr hcurrent, not_not.mpr hgeneration⟩)
    · exact absurd hreset hnot

/-- A call that throws does so for an exhausted budget, and leaves the records as
they are. -/
theorem consumeRepairAttempt_eq_error {workflow after : Workflow} {phase : Phase}
    {request : Request} {e : Failure}
    (h : consumeRepairAttempt workflow phase request = (after, .error e)) :
    after.repairBudgets.getD [] = workflow.repairBudgets.getD [] := by
  unfold consumeRepairAttempt at h
  split at h
  · cases h
  · dsimp only at h
    split at h
    · cases h
    · split at h
      · obtain ⟨rfl, -⟩ := Prod.mk.inj h
        rfl
      · cases h

/-- What holds of the repair budgets after a run. -/
structure BudgetsHeld (start : Workflow) (past : List (Workflow × Action)) (s : Workflow) :
    Prop where
  /-- Between two changes of the generation, at most `maxAttempts` returns are
  charged to a phase. -/
  bounded : ∀ recent window older, past = recent ++ window ++ older →
    ∀ id policy generation, start.policy id = some policy →
      (∀ entry ∈ window, entry.1.resetGeneration policy = generation) →
      window.countP (fun entry => chargedTo entry.1 entry.2 = some id) ≤ policy.maxAttempts
  /-- The attempts of every record are numbered without gaps. -/
  numbered : ∀ id state, mapGet (s.repairBudgets.getD []) id = some state →
    state.attempts.map Attempt.number = List.range' 1 state.attempts.length
  /-- A return to the phase that resets a budget consumes nothing. -/
  reset : ∀ source phase request checkpoint policy after receipt,
    repairBudgetPhaseForRejection s source request.targetPhase = .ok (some phase) →
      phase.repairBudget = some policy →
      truthy policy.resetOnPhase = some request.targetPhase →
      rejectPhase s source request checkpoint = .ok (after, receipt) →
      after.budgetFor phase policy = s.budgetFor phase policy
        ∧ ∀ id, id ≠ phase.id → mapGet (after.repairBudgets.getD []) id
            = mapGet (s.repairBudgets.getD []) id
  /-- A refusal leaves the recorded attempts as they are. -/
  refused : ∀ phase request after e, consumeRepairAttempt s phase request = (after, .error e) →
    after.repairBudgets.getD [] = s.repairBudgets.getD []

/-- **Repair budgets.**  Whatever happens between the returns, from a Story
without recorded attempts on, the budgets are held. -/
theorem budgets_held {start s : Workflow} {past : List (Workflow × Action)}
    (hstart : start.repairBudgets.getD [] = []) (h : Run step start past s) :
    BudgetsHeld start past s where
  bounded recent window older hpast id policy generation hpolicy hsteady := by
    rw [hpast, List.append_assoc] at h
    obtain ⟨s', hrun⟩ := h.earlier
    exact (charged_le hrun hpolicy hsteady).2
  numbered := run_numbered h fun id state hget => by
    rw [hstart] at hget
    cases hget
  reset _ _ _ _ _ _ _ hphase hpolicy hreset hreject :=
    rejectPhase_reset hreject hphase hpolicy hreset
  refused _ _ _ _ hrefused := consumeRepairAttempt_eq_error hrefused

/-! ## A run -/

/-- `build` may be repaired once for each generation of `plan`. -/
def sampleStory : Workflow where
  workItemId := js "STORY-1"
  phaseOrder := [js "plan", js "build", js "test"]
  phases := [⟨js "plan", 1, none, none, none⟩,
    ⟨js "build", 1, some ⟨1, some (js "plan")⟩, none, none⟩,
    ⟨js "test", 1, none, none, some [js "plan", js "build"]⟩]
  reworkLoops := none
  repairBudgets := none

def sampleReturn : Action :=
  .reject (js "test") ⟨js "build", js "reviewer", js "2026-01-01", js "CR-001", none⟩ (.ok ())

def sampleChange : Action :=
  .change [js "plan", js "build", js "test"] none (fun _ => 2) (fun _ => none) fun _ => none

/-- The story after some operations. -/
def storyAfter (actions : List Action) : Workflow :=
  actions.foldl (fun s a => (step s a).toOption.getD s) sampleStory

theorem budgets_held_sample : BudgetsHeld sampleStory
    [(storyAfter [sampleReturn, sampleChange], sampleReturn),
      (storyAfter [sampleReturn], sampleChange), (sampleStory, sampleReturn)]
    (storyAfter [sampleReturn, sampleChange, sampleReturn]) :=
  budgets_held rfl (((Run.start.step rfl).step rfl).step rfl)

/-- A second return in one generation is refused. -/
example : (step (storyAfter [sampleReturn]) sampleReturn).isOk = false := rfl

end RepairBudget

end SingularityFlow
