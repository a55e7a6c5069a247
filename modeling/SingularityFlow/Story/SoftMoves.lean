/-
# Soft moves restore a Story exactly when they leave nothing behind

A rejection or a reopening resets each phase from its target on.  A switch by
a soft gate has code of its own: it leaves the approvals and the retention
record of its target, the retention records after it, the approvals of an
active phase before it, and the final evaluation.  So it restores an orderly
Story exactly when there are none; a move of the status always does.
-/
import SingularityFlow.Story.Orderly
import SingularityFlow.Story.Dependencies
import SingularityFlow.Lib.Run

namespace SingularityFlow

open Ecma Approval

namespace Story

variable {tables : UnicodeTables} {workflow : Workflow} {story next : Aggregate} {id : Text}
  {before after : List Phase} {current phase : Phase}

/-! ## The state that a soft move restores -/

/-- What every reopening restores: the target is worked on, nothing is kept of
an earlier completion, and approved phases before the target are as they were. -/
structure Restored (story next : Aggregate) (id : Text) : Prop where
  currentPhase : next.workflow.currentPhase = some id
  present : id ∈ next.workflow.phaseOrder
  active : ∀ phase ∈ next.workflow.phases, Active phase ↔ phase.id = id
  approvals : ∀ phase ∈ next.workflow.phases, ¬ Settled phase →
    phase.status ≠ .awaitingApproval → phase.holdsApproval = false
  retention : ∀ phase ∈ next.workflow.phases, phase.status ≠ .approved → phase.retention = none
  completion : next.completion = none
  pendingDecision : next.workflow.pendingDecision = none
  kept : ∀ i < story.workflow.phaseOrder.idxOf id, ∀ phase, story.workflow.phases[i]? = some phase →
    phase.status = .approved → next.workflow.phases[i]? = some phase

/-- A switch to the phase leaves nothing behind: neither its own approvals and
retention record, nor approvals of an active phase before it, nor a retention
record after it, nor a final evaluation. -/
def LeavesNothing (story : Aggregate) (id : Text) : Prop :=
  ∃ before target after, story.workflow.phases = before ++ target :: after ∧ target.id = id ∧
    target.holdsApproval = false ∧ target.retention = none ∧
    (∀ phase ∈ before, Active phase → phase.holdsApproval = false) ∧
    (∀ phase ∈ after, phase.retention = none) ∧ story.completion = none

theorem isActive_iff : phase.isActive = true ↔ Active phase := by
  simp [Phase.isActive, Active]

theorem phaseOrder_idxOf (hphases : workflow.phases = before ++ current :: after)
    (hnodup : (workflow.phases.map (·.id)).Nodup) :
    workflow.phaseOrder.idxOf current.id = before.length := by
  rw [Workflow.phaseOrder, hphases]
  exact idxOf_split (hphases ▸ hnodup)

/-- A phase before the target of a switch. -/
def Phase.park (phase : Phase) : Phase :=
  if phase.isActive = true then { phase with status := .notStarted, decisionInputs := none }
  else phase

/-- The target of a switch. -/
def Phase.enter (phase : Phase) : Phase :=
  { phase with status := .inProgress, decisionInputs := none }

/-- A phase after the target of a switch. -/
def Phase.putBack (now : Text) (phase : Phase) : Phase :=
  invalidateApprovals now { phase with status := .notStarted, decisionInputs := none }

theorem park_of_not_active (h : ¬ Active phase) : phase.park = phase :=
  if_neg fun hactive => h (isActive_iff.mp hactive)

theorem park_of_active (h : Active phase) :
    phase.park = { phase with status := .notStarted, decisionInputs := none } :=
  if_pos (isActive_iff.mpr h)

theorem park_id (phase : Phase) : phase.park.id = phase.id := by
  unfold Phase.park
  split <;> rfl

theorem park_not_active (phase : Phase) : ¬ Active phase.park := by
  by_cases h : Active phase
  · rw [park_of_active h]
    exact not_active_of_notStarted rfl
  · rwa [park_of_not_active h]

theorem mapIdx_eq_map {α β : Type} {f : Nat → α → β} {g : α → β} {l : List α}
    (h : ∀ i a, l[i]? = some a → f i a = g a) : l.mapIdx f = l.map g := by
  refine List.ext_getElem? fun i => ?_
  rw [List.getElem?_mapIdx, List.getElem?_map]
  cases hget : l[i]? with
  | none => rfl
  | some a => exact congrArg some (h i a hget)

/-- **A switch**, phase by phase. -/
theorem switchCurrentPhase_split {now : Text}
    (hphases : workflow.phases = before ++ current :: after)
    (hnodup : (workflow.phases.map (·.id)).Nodup) :
    (switchCurrentPhase workflow (some current) now).phases
      = before.map Phase.park ++ current.enter :: after.map (Phase.putBack now) := by
  have hindex : orderIndex workflow.phaseOrder current.id = some before.length := by
    rw [orderIndex, phaseOrder_idxOf hphases hnodup, if_pos]
    rw [Workflow.phaseOrder, hphases]
    simp
  rw [hphases] at hnodup
  have hother : ∀ {i : Nat} {candidate : Phase}, candidate.id ≠ current.id →
      switchPhase (some current) (some before.length) now i candidate
        = if before.length ≤ i then invalidateApprovals now
            (if candidate.isActive = true ∨ before.length < i then
              { candidate with status := .notStarted, decisionInputs := none } else candidate)
          else if candidate.isActive = true ∨ before.length < i then
              { candidate with status := .notStarted, decisionInputs := none } else candidate := by
    intro i candidate hne
    simp [switchPhase, hne]
  simp only [switchCurrentPhase, Option.bind_some, hindex]
  rw [hphases, List.mapIdx_append, List.mapIdx_cons]
  congr 1
  · refine mapIdx_eq_map fun i candidate hget => ?_
    have hlt := (List.getElem?_eq_some_iff.mp hget).1
    rw [hother (not_mem_before hnodup candidate (List.mem_of_getElem? hget)),
      if_neg (by omega)]
    simp [Phase.park, show ¬ before.length < i by omega]
  · congr 1
    · simp [switchPhase, Phase.enter]
    · refine mapIdx_eq_map fun i candidate hget => ?_
      rw [hother (not_mem_after hnodup candidate (List.mem_of_getElem? hget)),
        if_pos (by omega), if_pos (.inr (by omega))]
      rfl

/-- A phase that is looked up stands in the order. -/
theorem exists_split_of_phase (h : workflow.phase id = some current) :
    current.id = id ∧ ∃ before after, workflow.phases = before ++ current :: after := by
  have hid : current.id = id := by simpa using List.find?_some h
  obtain ⟨before, after, hphases⟩ := List.append_of_mem (List.mem_of_find?_eq_some h)
  exact ⟨hid, before, after, hphases⟩

theorem lookup_phase {found : Phase} (h : workflow.lookup id = some (some found)) :
    workflow.phase id = some found := by
  unfold Workflow.lookup at h
  split at h
  · next hphase => rw [hphase, Option.some.inj h]
  · split at h <;> cases h

/-- The phases of a switch, by where they stood. -/
theorem mem_switchCurrentPhase {now : Text}
    (hphases : workflow.phases = before ++ current :: after)
    (hnodup : (workflow.phases.map (·.id)).Nodup) :
    phase ∈ (switchCurrentPhase workflow (some current) now).phases ↔
      (∃ old ∈ before, phase = old.park) ∨ phase = current.enter ∨
        ∃ old ∈ after, phase = old.putBack now := by
  rw [switchCurrentPhase_split hphases hnodup, List.mem_append, List.mem_cons, List.mem_map,
    List.mem_map]
  simp only [eq_comm]

theorem switchCurrentPhase_ids {now : Text}
    (hphases : workflow.phases = before ++ current :: after)
    (hnodup : (workflow.phases.map (·.id)).Nodup) :
    (switchCurrentPhase workflow (some current) now).phases.map (·.id)
      = workflow.phases.map (·.id) := by
  rw [switchCurrentPhase_split hphases hnodup, hphases, List.map_append, List.map_append,
    List.map_cons, List.map_cons, List.map_map, List.map_map]
  congr 1
  exact List.map_congr_left fun phase _ => park_id phase

/-- A switch that leaves nothing behind restores the Story. -/
theorem switch_restored {now : Text} (horderly : Orderly story.workflow)
    (hphases : story.workflow.phases = before ++ current :: after)
    (hcurrent : current.holdsApproval = false ∧ current.retention = none)
    (hbefore : ∀ phase ∈ before, Active phase → phase.holdsApproval = false)
    (hafter : ∀ phase ∈ after, phase.retention = none) (hcompletion : story.completion = none) :
    Restored story { story with workflow := switchCurrentPhase story.workflow (some current) now }
      current.id := by
  have hnodup := horderly.nodup
  have hmem : ∀ {phase : Phase}, phase ∈ (switchCurrentPhase story.workflow (some current)
      now).phases ↔ _ := mem_switchCurrentPhase hphases hnodup
  have htidy : ∀ phase ∈ before, Tidy phase := fun phase hphase =>
    horderly.tidy phase (hphases ▸ List.mem_append_left _ hphase)
  have hnodup' := hphases ▸ hnodup
  refine ⟨rfl, ?_, fun phase hphase => ?_, fun phase hphase hsettled hawaiting => ?_,
    fun phase hphase hne => ?_, hcompletion, rfl, fun i hi phase hget happroved => ?_⟩
  · change current.id ∈ (switchCurrentPhase story.workflow (some current) now).phases.map (·.id)
    rw [switchCurrentPhase_ids hphases hnodup, hphases]
    simp
  · rcases hmem.mp hphase with ⟨old, hold, rfl⟩ | rfl | ⟨old, hold, rfl⟩
    · rw [park_id]
      exact iff_of_false (park_not_active old) (not_mem_before hnodup' old hold)
    · exact iff_of_true (.inl rfl) rfl
    · exact iff_of_false (not_active_of_notStarted rfl) (not_mem_after hnodup' old hold)
  · rcases hmem.mp hphase with ⟨old, hold, rfl⟩ | rfl | ⟨old, hold, rfl⟩
    · by_cases hactive : Active old
      · rw [park_of_active hactive]
        exact hbefore old hold hactive
      · rw [park_of_not_active hactive] at hsettled ⊢
        refine (htidy old hold).approvals (.inl ?_)
        cases hstatus : old.status with
        | notStarted => rfl
        | inProgress => exact absurd (.inl hstatus) hactive
        | awaitingApproval => exact absurd (.inr hstatus) hactive
        | approved => exact absurd (.inl hstatus) hsettled
        | skipped => exact absurd (.inr hstatus) hsettled
    · exact hcurrent.1
    · exact invalidateApprovals_holdsApproval ..
  · rcases hmem.mp hphase with ⟨old, hold, rfl⟩ | rfl | ⟨old, hold, rfl⟩
    · by_cases hactive : Active old
      · rw [park_of_active hactive]
        refine (htidy old hold).retention fun happroved => ?_
        exact not_active_of_approved happroved hactive
      · rw [park_of_not_active hactive] at hne ⊢
        exact (htidy old hold).retention hne
    · exact hcurrent.2
    · exact hafter old hold
  · rw [phaseOrder_idxOf hphases hnodup] at hi
    rw [hphases, List.getElem?_append_left hi] at hget
    change (switchCurrentPhase story.workflow (some current) now).phases[i]? = some phase
    rw [switchCurrentPhase_split hphases hnodup, List.getElem?_append_left (by simpa using hi),
      List.getElem?_map, hget, Option.map_some,
      park_of_not_active (not_active_of_approved happroved)]

/-- **When a switch restores the Story**: exactly when it leaves nothing behind. -/
theorem switch_restored_iff {found : Option Phase} (now : Text) (horderly : Orderly story.workflow)
    (hlookup : story.workflow.lookup id = some found) :
    Restored story { story with workflow := switchCurrentPhase story.workflow found now } id ↔
      LeavesNothing story id := by
  cases found with
  | none =>
      refine iff_of_false (fun h => by cases h.currentPhase) ?_
      rintro ⟨before, target, after, hphases, rfl, -⟩
      rw [Workflow.lookup, phase_split hphases horderly.nodup] at hlookup
      cases hlookup
  | some current =>
      have hfound := lookup_phase hlookup
      constructor
      · intro h
        obtain ⟨rfl, before, after, hphases⟩ := exists_split_of_phase hfound
        have hmem : ∀ {phase : Phase}, phase ∈ (switchCurrentPhase story.workflow (some current)
          now).phases ↔ _ := mem_switchCurrentPhase hphases horderly.nodup
        have hcurrent : current.enter ∈ (switchCurrentPhase story.workflow (some current)
          now).phases := hmem.mpr (.inr (.inl rfl))
        refine ⟨before, current, after, hphases, rfl,
          h.approvals current.enter hcurrent (by rintro (hs | hs) <;> cases hs)
            (fun hs => by cases hs),
          h.retention current.enter hcurrent (fun hs => by cases hs), fun phase hphase hactive => ?_,
          fun phase hphase => ?_, h.completion⟩
        · have hparked := h.approvals phase.park (hmem.mpr (.inl ⟨phase, hphase, rfl⟩))
          rw [park_of_active hactive] at hparked
          exact hparked (by rintro (hs | hs) <;> cases hs) (fun hs => by cases hs)
        · exact h.retention (phase.putBack now) (hmem.mpr (.inr (.inr ⟨phase, hphase, rfl⟩)))
            fun hs => by cases hs
      · rintro ⟨before, target, after, hphases, rfl, hholds, hretention, hbefore, hafter, hnone⟩
        obtain rfl : target = current := by
          rw [phase_split hphases horderly.nodup] at hfound
          exact Option.some.inj hfound
        exact switch_restored horderly hphases ⟨hholds, hretention⟩ hbefore hafter hnone

/-- After a switch that restores it, the Story is orderly. -/
theorem switch_orderly {found : Option Phase} {now : Text} (horderly : Orderly story.workflow)
    (hlookup : story.workflow.lookup id = some found)
    (h : Restored story { story with workflow := switchCurrentPhase story.workflow found now } id) :
    Orderly (switchCurrentPhase story.workflow found now) := by
  cases found with
  | none => cases h.currentPhase
  | some current =>
      obtain ⟨rfl, before, after, hphases⟩ := exists_split_of_phase (lookup_phase hlookup)
      refine ⟨?_, fun phase hphase => ⟨fun hstatus => ?_, h.retention phase hphase⟩,
        .working ⟨switchCurrentPhase_split hphases horderly.nodup, rfl, rfl, ?_, ?_⟩ (.inl rfl) rfl⟩
      · rw [switchCurrentPhase_ids hphases horderly.nodup]
        exact horderly.nodup
      · refine h.approvals phase hphase ?_ ?_ <;> rcases hstatus with hs | hs
        · rintro (hs' | hs') <;> rw [hs] at hs' <;> cases hs'
        · rintro (hs' | hs') <;> rw [hs] at hs' <;> cases hs'
        · rw [hs]; exact nofun
        · rw [hs]; exact nofun
      · intro phase hphase
        obtain ⟨phase, -, rfl⟩ := List.mem_map.mp hphase
        exact park_not_active phase
      · intro phase hphase
        obtain ⟨phase, -, rfl⟩ := List.mem_map.mp hphase
        rfl

/-! ## A move of the status -/

/-- What a decision to move the status says of the Story. -/
theorem evaluateSequence_status {requested : Option Text}
    {allowedStatuses statuses : List PhaseStatus} {decision : SequenceDecision}
    (h : evaluateSequence story requested allowedStatuses = .error decision)
    (heffect : decision.effect = some (.status statuses)) :
    ∃ phase, activePhase story.workflow = some phase ∧ decision.target = phase.id ∧
      story.workflow.pendingDecision = none := by
  unfold evaluateSequence at h
  dsimp only at h
  split at h
  · cases h
    cases heffect
  next hpending =>
  split at h
  · split at h <;> cases h <;> cases heffect
  next phase hphase =>
  split at h
  · split at h <;> cases h <;> cases heffect
  · split at h
    · cases h
    · obtain rfl := Except.error.inj h
      exact ⟨phase, hphase, rfl, hpending⟩

theorem reconcilePhase_spec (statuses : List PhaseStatus) (now : Text) (hactive : Active current)
    (htidy : Tidy current) :
    Active (reconcilePhase statuses now current) ∧ Tidy (reconcilePhase statuses now current) ∧
      (reconcilePhase statuses now current).id = current.id := by
  have hretention : current.retention = none :=
    htidy.retention fun happroved => not_active_of_approved happroved hactive
  unfold reconcilePhase
  split
  · exact ⟨.inl rfl, ⟨fun _ => invalidateApprovals_holdsApproval now current,
      fun _ => hretention⟩, rfl⟩
  · refine ⟨.inr rfl, ⟨fun hstatus => ?_, fun _ => hretention⟩, rfl⟩
    rcases hstatus with hstatus | hstatus <;> cases hstatus
  · exact ⟨hactive, htidy, rfl⟩

/-- The current phase is written and stays active: the Story is restored. -/
theorem Stands.restored {written : Phase} (horderly : Orderly story.workflow)
    (hstands : Stands story.workflow before current after)
    (hpending : story.workflow.pendingDecision = none) (hid : written.id = current.id)
    (hactive : Active written) (htidy : Tidy written) (hcompletion : story.completion = none) :
    Restored story
      { story with workflow := story.workflow.update current.id fun _ => written } current.id := by
  have hphases := update_split hstands.phases horderly.nodup fun _ => written
  have hstay := hstands.stay horderly hpending hid hactive htidy
  have hnodup := hstands.phases ▸ horderly.nodup
  refine ⟨hstands.currentPhase, ?_, fun phase hphase => ?_, fun phase hphase hsettled hawaiting => ?_,
    fun phase hphase => (hstay.tidy phase hphase).retention, hcompletion, hpending,
    fun i hi phase hget _ => ?_⟩
  · change current.id ∈ (story.workflow.update current.id _).phases.map (·.id)
    rw [hphases, List.map_append, List.map_cons, hid]
    simp
  · change phase ∈ (story.workflow.update current.id _).phases at hphase
    rw [hphases, List.mem_append, List.mem_cons] at hphase
    rcases hphase with hphase | rfl | hphase
    · exact iff_of_false (hstands.before phase hphase) (not_mem_before hnodup phase hphase)
    · exact iff_of_true hactive hid
    · exact iff_of_false (not_active_of_notStarted (hstands.after phase hphase))
        (not_mem_after hnodup phase hphase)
  · refine (hstay.tidy phase hphase).approvals ?_
    cases hstatus : phase.status with
    | notStarted => exact .inl rfl
    | inProgress => exact .inr rfl
    | awaitingApproval => exact absurd hstatus hawaiting
    | approved => exact absurd (.inl hstatus) hsettled
    | skipped => exact absurd (.inr hstatus) hsettled
  · rw [phaseOrder_idxOf hstands.phases horderly.nodup] at hi
    rw [hstands.phases, List.getElem?_append_left hi] at hget
    change (story.workflow.update current.id _).phases[i]? = some phase
    rw [hphases, List.getElem?_append_left hi, hget]

/-! ## Operations -/

/-- A Story that is not closed has no final evaluation. -/
structure OrderlyStory (story : Aggregate) : Prop where
  workflow : Orderly story.workflow
  completion : story.completion = none ∨
    story.workflow.status = .closed ∧ story.workflow.currentPhase = none

theorem OrderlyStory.completion_eq_none (h : OrderlyStory story)
    (hcurrent : story.workflow.currentPhase ≠ none) : story.completion = none :=
  h.completion.resolve_right fun hclosed => hcurrent hclosed.2

/-- A move of the status restores the Story. -/
theorem reconcileStatus_restored (statuses : List PhaseStatus) (now : Text)
    (hstory : OrderlyStory story) (hactive : activePhase story.workflow = some phase)
    (hpending : story.workflow.pendingDecision = none) :
    story.workflow.lookup phase.id = some (some phase) ∧
      Restored story { story with
        workflow := reconcileStatus story.workflow (some phase) statuses now } phase.id ∧
      Orderly (reconcileStatus story.workflow (some phase) statuses now) := by
  have horderly := hstory.workflow
  obtain ⟨id, hcurrent, hphase⟩ := Option.bind_eq_some_iff.mp hactive
  obtain ⟨hcurrent, -⟩ := Option.filter_eq_some_iff.mp hcurrent
  obtain ⟨before, after, current, hstands, hworking⟩ : ∃ before after current,
      Stands story.workflow before current after ∧ Active current := by
    cases horderly.place with
    | resting hnone => rw [hnone] at hcurrent; cases hcurrent
    | working hstands hactive => exact ⟨_, _, _, hstands, hactive⟩
    | waiting _ _ hsome => rw [hpending] at hsome; cases hsome
  obtain rfl : phase = current := by
    rw [hstands.currentPhase, Option.some.injEq] at hcurrent
    rw [← hcurrent, phase_split hstands.phases horderly.nodup] at hphase
    exact (Option.some.inj hphase).symm
  have hmem : phase ∈ story.workflow.phases := hstands.phases ▸ by simp
  obtain ⟨hactive', htidy, hid⟩ :=
    reconcilePhase_spec statuses now hworking (horderly.tidy phase hmem)
  have hwritten : reconcileStatus story.workflow (some phase) statuses now
      = story.workflow.update phase.id fun _ => reconcilePhase statuses now phase := by
    have hphases := update_split hstands.phases horderly.nodup
    have hsame : story.workflow.update phase.id (reconcilePhase statuses now)
        = story.workflow.update phase.id fun _ => reconcilePhase statuses now phase := by
      have heq := (hphases (reconcilePhase statuses now)).trans
        (hphases fun _ => reconcilePhase statuses now phase).symm
      exact congrArg (fun phases => { story.workflow with phases := phases }) heq
    have hcurrent' : (story.workflow.update phase.id fun _ => reconcilePhase statuses now
      phase).currentPhase = some phase.id := hstands.currentPhase
    have hstatus : (story.workflow.update phase.id fun _ => reconcilePhase statuses now
      phase).status = .inProgress := hstands.status
    simp only [reconcileStatus, Option.map_some, hsame]
    rw [← hcurrent', ← hstatus]
  rw [hwritten]
  refine ⟨?_, hstands.restored horderly hpending hid hactive' htidy
    (hstory.completion_eq_none (by rw [hstands.currentPhase]; exact nofun)),
    hstands.stay horderly hpending hid hactive' htidy⟩
  rw [Workflow.lookup, phase_split hstands.phases horderly.nodup]

/-- Writing phases without their ids and statuses keeps a Story orderly. -/
theorem Orderly.update (horderly : Orderly workflow) (id : Text) {f : Phase → Phase}
    (hf : ∀ phase, (f phase).id = phase.id ∧ (f phase).status = phase.status ∧
      (Tidy phase → Tidy (f phase))) : Orderly (workflow.update id f) := by
  have hg : ∀ phase : Phase, (if phase.id = id then f phase else phase).id = phase.id ∧
      (if phase.id = id then f phase else phase).status = phase.status ∧
      (Tidy phase → Tidy (if phase.id = id then f phase else phase)) := by
    intro phase
    split
    · exact hf phase
    · exact ⟨rfl, rfl, fun h => h⟩
  have hactive : ∀ {phase : Phase}, Active (if phase.id = id then f phase else phase) ↔
      Active phase := by
    intro phase
    rw [Active, Active, (hg phase).2.1]
  have hstands : ∀ {before after : List Phase} {current : Phase},
      Stands workflow before current after → Stands (workflow.update id f)
        (before.map fun phase => if phase.id = id then f phase else phase)
        (if current.id = id then f current else current)
        (after.map fun phase => if phase.id = id then f phase else phase) := by
    intro before after current hstands
    refine ⟨?_, hstands.status, ?_, fun phase hphase => ?_, fun phase hphase => ?_⟩
    · change workflow.phases.map _ = _
      rw [hstands.phases, List.map_append, List.map_cons]
    · rw [(hg current).1]
      exact hstands.currentPhase
    · obtain ⟨phase, hmem, rfl⟩ := List.mem_map.mp hphase
      exact fun h => hstands.before phase hmem (hactive.mp h)
    · obtain ⟨phase, hmem, rfl⟩ := List.mem_map.mp hphase
      exact (hg phase).2.1.trans (hstands.after phase hmem)
  refine ⟨?_, fun phase hphase => ?_, ?_⟩
  · have hids : (workflow.update id f).phases.map (·.id) = workflow.phases.map (·.id) := by
      change (workflow.phases.map fun phase => if phase.id = id then f phase else phase).map _ = _
      rw [List.map_map]
      exact List.map_congr_left fun phase _ => (hg phase).1
    rw [hids]
    exact horderly.nodup
  · obtain ⟨phase, hmem, rfl⟩ := List.mem_map.mp hphase
    exact (hg phase).2.2 (horderly.tidy phase hmem)
  · cases horderly.place with
    | resting hcurrent hpending hnone =>
        refine .resting hcurrent hpending fun phase hphase h => ?_
        obtain ⟨phase, hmem, rfl⟩ := List.mem_map.mp hphase
        exact hnone phase hmem (hactive.mp h)
    | working hplace hworking hpending =>
        exact .working (hstands hplace) (hactive.mpr hworking) hpending
    | @waiting _ _ current _ hplace happroved hpending =>
        exact .waiting (hstands hplace) ((hg current).2.1.trans happroved) hpending

theorem recordDecision_orderly {phaseId : Text} {decision : ApprovalRecord}
    (horderly : Orderly workflow) (hdecision : decision.decision ≠ .approved) :
    Orderly (recordDecision workflow phaseId decision) := by
  refine horderly.update phaseId fun phase => ⟨rfl, rfl, fun htidy => ⟨fun hstatus => ?_,
    htidy.retention⟩⟩
  have hnone := htidy.approvals hstatus
  rw [Phase.holdsApproval] at hnone ⊢
  rw [List.any_append, hnone]
  simp [ApprovalRecord.active, hdecision]

/-- Without a current phase only a restart is accepted. -/
theorem step_of_resting {action : Action} {workflow' : Workflow}
    (hcurrent : workflow.currentPhase = none) (hpending : workflow.pendingDecision = none)
    (h : step tables workflow action = .ok workflow') : action = .restart := by
  have hnone {status : PhaseStatus} {phase : Phase} : currentIn workflow status ≠ .ok phase := by
    rw [currentIn, hcurrent]
    rintro ⟨⟩
  cases action with
  | submit submission =>
      obtain ⟨phase, hphase, -⟩ := bind_eq_ok_iff.mp h
      exact absurd hphase hnone
  | approve decision completion =>
      obtain ⟨phase, hphase, -⟩ := bind_eq_ok_iff.mp h
      exact absurd hphase hnone
  | decide option choice now =>
      have h : decideStory workflow option choice now = .ok workflow' := h
      rw [decideStory, hpending, Option.filter_none] at h
      cases h
  | reject target unsubmitted now =>
      obtain ⟨phase, hphase, -⟩ := bind_eq_ok_iff.mp h
      exact absurd hphase hnone
  | restart => rfl

theorem Orderly.pendingDecision (horderly : Orderly workflow)
    (hcurrent : workflow.currentPhase = none) : workflow.pendingDecision = none := by
  cases horderly.place with
  | resting _ hpending => exact hpending
  | working hstands | waiting hstands =>
      rw [hstands.currentPhase] at hcurrent
      cases hcurrent

theorem Orderly.not_active (horderly : Orderly workflow) (hcurrent : workflow.currentPhase = none) :
    ∀ phase ∈ workflow.phases, ¬ Active phase := by
  cases horderly.place with
  | resting _ _ hnone => exact hnone
  | working hstands | waiting hstands =>
      rw [hstands.currentPhase] at hcurrent
      cases hcurrent

theorem reopenWorkflow_orderly {target : Option Text} {decision : ApprovalRecord}
    (hstory : OrderlyStory story) (h : reopenWorkflow story target decision = .ok next) :
    OrderlyStory next := by
  simp only [reopenWorkflow, bind_eq_ok_iff, failIf_eq_ok_iff, exists_const] at h
  obtain ⟨hclosed, h⟩ := h
  have hcurrent : story.workflow.currentPhase = none := not_not.mp (not_or.mp hclosed).2
  have horderly := hstory.workflow
  split at h
  · cases h
  next completionPhase _ =>
  simp only [bind_eq_ok_iff, failIf_eq_ok_iff, exists_const, not_not, Except.ok.injEq] at h
  obtain ⟨hmem, reopened, hreopened, rfl⟩ := h
  obtain ⟨earlier, target, rest, hsplit, hid⟩ := exists_split hmem
  rw [← hid] at hreopened
  refine ⟨recordDecision_orderly ?_ nofun, .inl rfl⟩
  have hearlier : ∀ phase ∈ earlier, phase ∈ story.workflow.phases := fun phase hphase =>
    hsplit ▸ List.mem_append_left _ hphase
  exact reopenPhaseRange_orderly hsplit horderly.nodup (horderly.pendingDecision hcurrent)
    (fun phase hphase => horderly.tidy phase (hearlier phase hphase))
    (fun phase hphase => horderly.not_active hcurrent phase (hearlier phase hphase)) hreopened

/-- The operation restores the state of the Story, if it is a soft move. -/
def Operation.Restores (story next : Aggregate) : Operation → Prop
  | .soft requestedPhase allowedStatuses _ => ∀ decision,
      evaluateSequence story requestedPhase allowedStatuses = .error decision →
      decision.effect.isSome = true → Restored story next decision.target
  | _ => True

/-- The operation is no switch that leaves something behind. -/
def Operation.Clean (story : Aggregate) : Operation → Prop
  | .soft requestedPhase allowedStatuses _ => ∀ decision,
      evaluateSequence story requestedPhase allowedStatuses = .error decision →
      decision.effect = some .switch → LeavesNothing story decision.target
  | _ => True

/-- **One operation** on an orderly Story. -/
theorem operate_restores_iff {operation : Operation} (hstory : OrderlyStory story)
    (h : operate tables story operation = .ok next) :
    (operation.Restores story next ↔ operation.Clean story) ∧
      (operation.Clean story → OrderlyStory next) := by
  cases operation with
  | lifecycle action =>
      refine ⟨Iff.rfl, fun _ => ?_⟩
      simp only [operate, bind_eq_ok_iff, Except.ok.injEq] at h
      obtain ⟨workflow', hstep, rfl⟩ := h
      refine ⟨step_orderly hstory.workflow hstep, ?_⟩
      rcases hstory.completion with hnone | ⟨hclosed, hcurrent⟩
      · refine .inl ?_
        dsimp only
        split
        · rfl
        · exact hnone
      · obtain rfl := step_of_resting hcurrent (hstory.workflow.pendingDecision hcurrent) hstep
        obtain rfl := Except.ok.inj hstep
        exact .inr ⟨hclosed, hcurrent⟩
  | reject target unsubmitted decision =>
      refine ⟨Iff.rfl, fun _ => ?_⟩
      simp only [operate, bind_eq_ok_iff, Except.ok.injEq] at h
      obtain ⟨phase, -, workflow', hreject, rfl⟩ := h
      exact ⟨recordDecision_orderly (rejectPhase_orderly hstory.workflow hreject) nofun, .inl rfl⟩
  | reopen target decision =>
      exact ⟨Iff.rfl, fun _ => reopenWorkflow_orderly hstory h⟩
  | finalize verdict =>
      refine ⟨Iff.rfl, fun _ => ?_⟩
      simp only [operate, bind_eq_ok_iff, failIf_eq_ok_iff, exists_const, not_not,
        Except.ok.injEq] at h
      obtain ⟨hclosed, rfl⟩ := h
      refine ⟨hstory.workflow, .inr ⟨hclosed, ?_⟩⟩
      cases hstory.workflow.place with
      | resting hcurrent => exact hcurrent
      | working hstands | waiting hstands =>
          rw [hstands.status] at hclosed
          cases hclosed
  | soft requestedPhase allowedStatuses now =>
      simp only [operate] at h
      split at h
      · next heval =>
        obtain rfl := Except.ok.inj h
        refine ⟨iff_of_true (fun decision hdecision => ?_) fun decision hdecision => ?_,
          fun _ => hstory⟩ <;> rw [heval] at hdecision <;> cases hdecision
      next decision heval =>
      have hsame : ∀ {other : SequenceDecision},
          evaluateSequence story requestedPhase allowedStatuses = .error other →
          other = decision := fun hother => by
        rw [heval] at hother
        exact (Except.error.inj hother).symm
      split at h
      · cases h
      next hnext =>
      obtain rfl := Except.ok.inj h
      obtain ⟨effect, heffect, happly⟩ := Option.bind_eq_some_iff.mp hnext
      obtain ⟨found, hlookup, hresult⟩ := Option.map_eq_some_iff.mp happly
      rw [heffect] at hresult
      cases effect with
      | switch =>
          subst hresult
          have hiff := switch_restored_iff now hstory.workflow hlookup
          refine ⟨⟨fun hrestores other hother _ => ?_, fun hclean other hother _ => ?_⟩,
            fun hclean => ?_⟩
          · obtain rfl := hsame hother
            exact hiff.mp (hrestores other hother (by rw [heffect]; rfl))
          · obtain rfl := hsame hother
            exact hiff.mpr (hclean other hother heffect)
          · have hrestored := hiff.mpr (hclean decision heval heffect)
            exact ⟨switch_orderly hstory.workflow hlookup hrestored, .inl hrestored.completion⟩
      | status statuses =>
          obtain ⟨phase, hactive, htarget, hpending⟩ := evaluateSequence_status heval heffect
          obtain ⟨hfound, hrestored, horderly⟩ :=
            reconcileStatus_restored statuses now hstory hactive hpending
          obtain rfl : found = some phase := by
            rw [htarget, hfound] at hlookup
            exact (Option.some.inj hlookup).symm
          subst hresult
          refine ⟨iff_of_true (fun other hother _ => ?_) fun other hother hswitch => ?_,
            fun _ => ⟨horderly, .inl hrestored.completion⟩⟩
          · obtain rfl := hsame hother
            rw [htarget]
            exact hrestored
          · obtain rfl := hsame hother
            rw [heffect] at hswitch
            cases hswitch

/-! ## Runs -/

theorem storeStory_orderly {workItem : Text} {definition : Definition}
    (hnodup : (definition.phases.map (·.id)).Nodup) :
    OrderlyStory (storeStory workItem definition) := by
  refine ⟨?_, .inl rfl⟩
  have htidy : ∀ (first : Bool) (config : PhaseConfig), Tidy (phaseState first config) :=
    fun _ _ => ⟨fun _ => rfl, fun _ => rfl⟩
  cases hphases : definition.phases with
  | nil =>
      refine ⟨?_, ?_, .resting ?_ rfl ?_⟩ <;> simp [storeStory, startStory, hphases]
  | cons first rest =>
      have hstart : (startStory definition).phases
          = phaseState true first :: rest.map (phaseState false) := by
        simp [startStory, hphases]
      have hstands : Stands (startStory definition) [] (phaseState true first)
          (rest.map (phaseState false)) := by
        refine ⟨hstart, rfl, ?_, by simp, fun phase hphase => ?_⟩
        · change definition.phases.head?.map (·.id) = _
          rw [hphases]
          rfl
        · obtain ⟨config, -, rfl⟩ := List.mem_map.mp hphase
          rfl
      refine ⟨?_, ?_, .working hstands (.inl rfl) rfl⟩
      · change ((startStory definition).phases.map (·.id)).Nodup
        rw [hstart, List.map_cons, List.map_map]
        rw [hphases] at hnodup
        exact hnodup
      · intro phase hphase
        change phase ∈ (startStory definition).phases at hphase
        rw [hstart] at hphase
        rcases List.mem_cons.mp hphase with rfl | hphase
        · exact htidy ..
        · obtain ⟨config, -, rfl⟩ := List.mem_map.mp hphase
          exact htidy ..

/-- The last operation of a run restores the Story, if it is a soft move. -/
def RestoresLast : List (Aggregate × Operation) → Aggregate → Prop
  | [], _ => True
  | (story, operation) :: _, next => operation.Restores story next

/-- **Soft moves restore what every reopening restores, in a run whose switches
leave nothing behind, and in no other.** -/
theorem softMoves_restore_iff {workItem : Text} {definition : Definition}
    {past : List (Aggregate × Operation)} (hnodup : (definition.phases.map (·.id)).Nodup)
    (hrun : Run (operate tables) (storeStory workItem definition) past story) :
    Throughout RestoresLast past story ↔ ∀ entry ∈ past, entry.2.Clean entry.1 :=
  hrun.throughout_iff_of_invariant (storeStory_orderly hnodup) trivial operate_restores_iff

section Example

/-- One phase that a lead signs off. -/
def signedStory : Aggregate := storeStory (js "WORK-1") ⟨[signedPhase (js "sign")], [], none, []⟩

def submitted : Operation := .lifecycle (.submit ⟨1, none, false, false, atNoon⟩)

def reopenSoftly : Operation := .soft none [.inProgress] (js "12:30")

/-- The operation is no switch of the Story. -/
def Operation.keepsPlace (story : Aggregate) : Operation → Bool
  | .soft requestedPhase allowedStatuses _ =>
      match evaluateSequence story requestedPhase allowedStatuses with
      | .ok _ => true
      | .error decision => decision.effect ≠ some .switch
  | _ => true

/-- A submitted phase is taken back by a soft gate. -/
theorem softMoves_restore_iff_submitted : ∃ past story,
    runFrom (operate asciiTables) ([], signedStory) [submitted, reopenSoftly] = .ok (past, story) ∧
      Throughout RestoresLast past story := by
  obtain ⟨⟨past, story⟩, hrun, hkeeps⟩ := exists_ok_of_any
    (x := runFrom (operate asciiTables) ([], signedStory) [submitted, reopenSoftly])
    (p := fun run => run.1.all fun entry => entry.2.keepsPlace entry.1) (by decide +kernel)
  refine ⟨past, story, hrun, (softMoves_restore_iff (by decide)
    (Run.of_runFrom .start hrun)).mpr fun entry hentry => ?_⟩
  have hkeep := List.all_eq_true.mp hkeeps entry hentry
  obtain ⟨before, operation⟩ := entry
  cases operation with
  | soft requestedPhase allowedStatuses now =>
      intro decision hdecision hswitch
      simp only [Operation.keepsPlace, hdecision, hswitch] at hkeep
      exact absurd hkeep (by decide)
  | lifecycle | reject | reopen | finalize => exact trivial

/-- A Story that was signed off is taken up again by a soft gate: its phase is
worked on and holds the approval that signed it off. -/
theorem signedOff_not_restored : ∃ past story decision next,
    Run (operate asciiTables) signedStory past story ∧
      evaluateSequence story none [.inProgress] = .error decision ∧
      decision.effect = some .switch ∧
      applySequenceDecision story decision (js "12:30") = some next ∧
      ¬ Restored story next decision.target := by
  obtain ⟨⟨past, story⟩, hrun, hcheck⟩ := exists_ok_of_any
    (x := runFrom (operate asciiTables) ([], signedStory) [submitted, .lifecycle approveAsLead])
    (p := fun run => match evaluateSequence run.2 none [.inProgress] with
      | .ok _ => false
      | .error decision => decision.effect = some .switch &&
          (applySequenceDecision run.2 decision (js "12:30")).any fun next =>
            next.workflow.phases.any fun phase =>
              phase.status = .inProgress && phase.holdsApproval) (by decide +kernel)
  cases hdecision : evaluateSequence story none [.inProgress] with
  | ok id => simp only [hdecision] at hcheck; cases hcheck
  | error decision =>
      simp only [hdecision, Bool.and_eq_true, decide_eq_true_eq, Option.any_eq_true,
        List.any_eq_true] at hcheck
      obtain ⟨heffect, next, hnext, phase, hphase, hstatus, hholds⟩ := hcheck
      refine ⟨past, story, decision, next, Run.of_runFrom .start hrun, hdecision, heffect, hnext,
        fun h => ?_⟩
      have hnone := h.approvals phase hphase (by rintro (hs | hs) <;> rw [hstatus] at hs <;> cases hs)
        (by rw [hstatus]; exact nofun)
      rw [hnone] at hholds
      cases hholds

end Example

end Story

end SingularityFlow
