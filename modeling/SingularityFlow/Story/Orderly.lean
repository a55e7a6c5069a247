/-
# Orderly Stories

A Story is orderly when only its current phase is active, and no phase keeps
approvals or a retention record that do not fit its status.  The lifecycle
keeps a Story orderly.

A Story that was moved by a soft gate may stand behind phases that have not
started, so the places here are wider than those of `Places`.
-/
import SingularityFlow.Story.SoftGates
import SingularityFlow.Story.Shape

namespace SingularityFlow

open Ecma Approval

namespace Story

variable {tables : UnicodeTables} {workflow workflow' : Workflow}
  {before after passed fresh : List Phase} {current phase : Phase}

/-! ## Orderly Stories -/

/-- The phase holds an approval that is not invalidated. -/
def Phase.holdsApproval (phase : Phase) : Bool := phase.approvals.any (·.active)

/-- What a phase keeps fits its status. -/
structure Tidy (phase : Phase) : Prop where
  approvals : phase.status = .notStarted ∨ phase.status = .inProgress →
    phase.holdsApproval = false
  retention : phase.status ≠ .approved → phase.retention = none

/-- A Story under way stands at `current`; nothing after it has started. -/
structure Stands (workflow : Workflow) (before : List Phase) (current : Phase)
    (after : List Phase) : Prop where
  phases : workflow.phases = before ++ current :: after
  status : workflow.status = .inProgress
  currentPhase : workflow.currentPhase = some current.id
  before : ∀ phase ∈ before, ¬ Active phase
  after : ∀ phase ∈ after, phase.status = .notStarted

inductive Place (workflow : Workflow) : Prop
  | resting : workflow.currentPhase = none → workflow.pendingDecision = none →
      (∀ phase ∈ workflow.phases, ¬ Active phase) → Place workflow
  | working {before after : List Phase} {current : Phase} :
      Stands workflow before current after → Active current → workflow.pendingDecision = none →
      Place workflow
  | waiting {before after : List Phase} {current : Phase} {pending : PendingDecision} :
      Stands workflow before current after → current.status = .approved →
      workflow.pendingDecision = some pending → Place workflow

structure Orderly (workflow : Workflow) : Prop where
  nodup : (workflow.phases.map (·.id)).Nodup
  tidy : ∀ phase ∈ workflow.phases, Tidy phase
  place : Place workflow

theorem Tidy.of_approved (h : phase.status = .approved) : Tidy phase := by
  refine ⟨fun hstatus => ?_, fun hne => absurd h hne⟩
  rcases hstatus with hstatus | hstatus <;> rw [h] at hstatus <;> cases hstatus

theorem not_active_of_approved (h : phase.status = .approved) : ¬ Active phase := by
  rintro (hactive | hactive) <;> rw [h] at hactive <;> cases hactive

/-- A phase that has not started keeps nothing, whatever it becomes. -/
theorem Tidy.of_notStarted (h : Tidy phase) (hstatus : phase.status = .notStarted)
    (status : PhaseStatus) : Tidy { phase with status } :=
  ⟨fun _ => h.approvals (.inl hstatus), fun _ => h.retention (by rw [hstatus]; exact nofun)⟩

theorem invalidateApprovals_holdsApproval (now : Text) (phase : Phase) :
    (invalidateApprovals now phase).holdsApproval = false := by
  simp only [Phase.holdsApproval, invalidateApprovals, List.any_eq_false, List.mem_map,
    forall_exists_index, and_imp, forall_apply_eq_imp_iff₂]
  intro approval _
  split
  · simp [ApprovalRecord.active]
  · next h => simp [ApprovalRecord.active, h]

theorem tidy_resetPhaseForRework (phase : Phase) (now : Text) (status : PhaseStatus)
    (retainable : Bool) : Tidy (resetPhaseForRework phase now status retainable) :=
  ⟨fun _ => invalidateApprovals_holdsApproval now phase, fun _ => rfl⟩

/-! ## Advancing and going back -/

/-- The Story arrives at the first phase ahead, or rests. -/
theorem arrive_orderly (front : List Phase) {ahead : List Phase} (hphases : workflow.phases = front ++ ahead)
    (hnodup : (workflow.phases.map (·.id)).Nodup) (htidy : ∀ phase ∈ workflow.phases, Tidy phase)
    (hfront : ∀ phase ∈ front, ¬ Active phase)
    (hahead : ∀ phase ∈ ahead, phase.status = .notStarted) (hstatus : workflow.status = .inProgress)
    (hpending : workflow.pendingDecision = none) : Orderly (arrive workflow ahead.head?) := by
  cases ahead with
  | nil =>
      rw [List.append_nil] at hphases
      exact ⟨hnodup, htidy, .resting rfl hpending (by rw [← hphases] at hfront; exact hfront)⟩
  | cons next rest =>
      have hphases' := update_split hphases hnodup fun phase => { phase with status := .inProgress }
      have hnext := hahead next (List.mem_cons_self ..)
      have hstands : Stands (arrive workflow (some next)) front
          { next with status := .inProgress } rest :=
        ⟨hphases', hstatus, rfl, hfront, fun phase hphase =>
          hahead phase (List.mem_cons_of_mem _ hphase)⟩
      refine ⟨?_, ?_, .working hstands (.inl rfl) hpending⟩
      · rw [hphases] at hnodup
        change ((workflow.update next.id _).phases.map _).Nodup
        rw [hphases', List.map_append, List.map_cons]
        rw [List.map_append, List.map_cons] at hnodup
        exact hnodup
      · intro phase hphase
        change phase ∈ (workflow.update next.id _).phases at hphase
        rw [hphases', List.mem_append, List.mem_cons] at hphase
        rcases hphase with hphase | rfl | hphase
        · exact htidy phase (hphases ▸ List.mem_append_left _ hphase)
        · exact (htidy next (hphases ▸ by simp)).of_notStarted hnext _
        · exact htidy phase (hphases ▸ by simp [hphase])

/-- **Going back** keeps what comes before the target. -/
theorem reopenPhaseRange_orderly {earlier rest : List Phase} {target : Phase} {now : Text}
    {retain : Bool} (hphases : workflow.phases = earlier ++ target :: rest)
    (hnodup : (workflow.phases.map (·.id)).Nodup) (hpending : workflow.pendingDecision = none)
    (htidy : ∀ phase ∈ earlier, Tidy phase) (hearlier : ∀ phase ∈ earlier, ¬ Active phase)
    (h : reopenPhaseRange workflow target.id now retain = .ok workflow') : Orderly workflow' := by
  obtain rfl := reopenPhaseRange_split hphases hnodup hpending h
  have hstarted : (resetPhaseForRework target now .inProgress false).status = .inProgress := rfl
  refine ⟨?_, ?_, .working ⟨rfl, rfl, rfl, hearlier, ?_⟩ (.inl hstarted) rfl⟩
  · rw [hphases] at hnodup
    rw [List.map_append, List.map_cons, List.map_map]
    rw [List.map_append, List.map_cons] at hnodup
    exact hnodup
  · intro phase hphase
    rcases List.mem_append.mp hphase with hphase | hphase
    · exact htidy phase hphase
    · rcases List.mem_cons.mp hphase with rfl | hphase
      · exact tidy_resetPhaseForRework ..
      · obtain ⟨phase, -, rfl⟩ := List.mem_map.mp hphase
        exact tidy_resetPhaseForRework ..
  · intro phase hphase
    obtain ⟨phase, -, rfl⟩ := List.mem_map.mp hphase
    rfl

/-- Going back to a phase that is not after the current one. -/
theorem reopened_orderly {targetId now : Text} {retain : Bool}
    (hphases : workflow.phases = before ++ current :: after)
    (hnodup : (workflow.phases.map (·.id)).Nodup) (hpending : workflow.pendingDecision = none)
    (htidy : ∀ phase ∈ before, Tidy phase) (hbefore : ∀ phase ∈ before, ¬ Active phase)
    (hback : ¬ (targetId ∉ workflow.phaseOrder ∨
      workflow.phaseOrder.idxOf current.id < workflow.phaseOrder.idxOf targetId))
    (h : reopenPhaseRange workflow targetId now retain = .ok workflow') : Orderly workflow' := by
  obtain ⟨hmem, hle⟩ := not_or.mp hback
  rw [not_not] at hmem
  rw [not_lt] at hle
  obtain ⟨earlier, target, rest, hsplit, rfl⟩ := exists_split hmem
  have hlength : earlier.length ≤ before.length := by
    have htarget : workflow.phaseOrder.idxOf target.id = earlier.length := by
      rw [Workflow.phaseOrder, hsplit]
      exact idxOf_split (hsplit ▸ hnodup)
    have hcurrent : workflow.phaseOrder.idxOf current.id = before.length := by
      rw [Workflow.phaseOrder, hphases]
      exact idxOf_split (hphases ▸ hnodup)
    rwa [htarget, hcurrent] at hle
  obtain ⟨mid, hmid, -⟩ := split_le (hsplit.symm.trans hphases) hlength
  have hsubset : ∀ phase ∈ earlier, phase ∈ before := fun phase hphase =>
    subset_of_split hmid hphase
  exact reopenPhaseRange_orderly hsplit hnodup hpending
    (fun phase hphase => htidy phase (hsubset phase hphase))
    (fun phase hphase => hbefore phase (hsubset phase hphase)) h

theorem loopBackForDecision_orderly {outcome : Outcome} {now : Text}
    (hphases : workflow.phases = before ++ current :: after)
    (hnodup : (workflow.phases.map (·.id)).Nodup) (hpending : workflow.pendingDecision = none)
    (htidy : ∀ phase ∈ before, Tidy phase) (hbefore : ∀ phase ∈ before, ¬ Active phase)
    (h : loopBackForDecision workflow current outcome now = .ok workflow') : Orderly workflow' := by
  simp only [loopBackForDecision, bind_eq_ok_iff, failIf_eq_ok_iff, exists_const] at h
  obtain ⟨hback, h⟩ := h
  obtain ⟨hphases', -, hpending'⟩ := countRound_frame workflow outcome.decision
  refine reopened_orderly (hphases'.trans hphases) (hphases' ▸ hnodup) (hpending'.trans hpending)
    htidy hbefore ?_ h
  rw [Workflow.phaseOrder, hphases']
  exact hback

/-- The Story when its current phase has completed; the phases `passed` kept
their approval. -/
structure Finished (workflow : Workflow) (before : List Phase) (current : Phase)
    (passed fresh : List Phase) : Prop where
  phases : workflow.phases = before ++ current :: (passed ++ fresh)
  nodup : (workflow.phases.map (·.id)).Nodup
  tidy : ∀ phase ∈ workflow.phases, Tidy phase
  before : ∀ phase ∈ before, ¬ Active phase
  approved : current.status = .approved
  passed : ∀ phase ∈ passed, phase.status = .approved ∧ phase.retention = some phase.generation
  fresh : ∀ phase ∈ fresh, phase.status = .notStarted
  status : workflow.status = .inProgress

/-- The linear path. -/
theorem Finished.linear (hfinished : Finished workflow before current passed fresh)
    (h : advanceCompletedPhase workflow current none none = .ok workflow') : Orderly workflow' := by
  simp only [advanceCompletedPhase, bind_eq_ok_iff, Except.ok.injEq] at h
  obtain ⟨upcoming, hupcoming, rfl⟩ := h
  obtain rfl := nextPhase_split hfinished.phases hfinished.nodup hfinished.passed hfinished.fresh
    hupcoming
  refine arrive_orderly (before ++ current :: passed) (by simp [hfinished.phases])
    hfinished.nodup hfinished.tidy ?_ hfinished.fresh hfinished.status rfl
  intro phase hphase
  rcases List.mem_append.mp hphase with hphase | hphase
  · exact hfinished.before phase hphase
  · rcases List.mem_cons.mp hphase with rfl | hphase
    · exact not_active_of_approved hfinished.approved
    · exact not_active_of_approved (hfinished.passed phase hphase).1

/-- Passing over the phases `mid`. -/
theorem Finished.skip {mid ahead : List Phase}
    (hfinished : Finished workflow before current [] (mid ++ ahead)) :
    Orderly (arrive (skipPhaseRange { workflow with pendingDecision := none } (mid.map (·.id)))
      ahead.head?) := by
  have hsplit : ({ workflow with pendingDecision := none } : Workflow).phases
      = (before ++ [current]) ++ (mid ++ ahead) := by
    change workflow.phases = _
    rw [hfinished.phases]; simp
  have hmid : ∀ phase ∈ mid, phase.status = .notStarted := fun phase hphase =>
    hfinished.fresh phase (List.mem_append_left _ hphase)
  have hskipped := skipPhaseRange_split hsplit hfinished.nodup hmid
  have hfront : ∀ phase ∈ before ++ [current], ¬ Active phase ∧ Tidy phase := by
    intro phase hphase
    refine ⟨?_, hfinished.tidy phase (hsplit ▸ List.mem_append_left _ hphase)⟩
    rcases List.mem_append.mp hphase with hphase | hphase
    · exact hfinished.before phase hphase
    · obtain rfl := List.mem_singleton.mp hphase
      exact not_active_of_approved hfinished.approved
  refine arrive_orderly ((before ++ [current]) ++ mid.map Phase.skip)
    (by rw [hskipped]; simp) ?_ ?_ ?_ (fun phase hphase =>
      hfinished.fresh phase (List.mem_append_right _ hphase)) hfinished.status rfl
  · have hnodup := hfinished.nodup
    rw [hsplit] at hnodup
    rw [hskipped]
    simpa [Function.comp_def, Phase.skip, Phase.id] using hnodup
  · rw [hskipped]
    intro phase hphase
    rcases List.mem_append.mp hphase with hphase | hphase
    · exact (hfront phase hphase).2
    · rcases List.mem_append.mp hphase with hphase | hphase
      · obtain ⟨phase, hmem, rfl⟩ := List.mem_map.mp hphase
        exact (hfinished.tidy phase (hsplit ▸ by simp [hmem])).of_notStarted (hmid phase hmem) _
      · exact hfinished.tidy phase (hsplit ▸ by simp [hphase])
  · intro phase hphase
    rcases List.mem_append.mp hphase with hphase | hphase
    · exact (hfront phase hphase).1
    · obtain ⟨phase, -, rfl⟩ := List.mem_map.mp hphase
      rintro (h | h) <;> cases h

/-- The phase that a route leads to, past those it skips. -/
theorem Finished.phase_skipped {mid rest : List Phase} {next : Phase}
    (hfinished : Finished workflow before current [] (mid ++ next :: rest)) :
    (skipPhaseRange { workflow with pendingDecision := none } (mid.map (·.id))).phase next.id
      = some next := by
  have hsplit : ({ workflow with pendingDecision := none } : Workflow).phases
      = (before ++ [current]) ++ (mid ++ next :: rest) := by
    change workflow.phases = _
    rw [hfinished.phases]; simp
  have hskipped := skipPhaseRange_split hsplit hfinished.nodup
    fun phase hphase => hfinished.fresh phase (List.mem_append_left _ hphase)
  have hphases : (skipPhaseRange { workflow with pendingDecision := none }
      (mid.map (·.id))).phases = ((before ++ [current]) ++ mid.map Phase.skip) ++ next :: rest := by
    rw [hskipped]; simp
  refine phase_split hphases ?_
  have hnodup := hfinished.nodup
  rw [hsplit] at hnodup
  rw [hskipped]
  simpa [Function.comp_def, Phase.skip, Phase.id] using hnodup

/-- **Advancing along a route** that leads ahead. -/
theorem Finished.route {outcome : Outcome} {reach : Reach} {pending : Option PendingDecision}
    (hfinished : Finished workflow before current [] after)
    (hleads : Leads (before.map (·.id)) current.id (after.map (·.id)) reach)
    (hahead : reach.kind ≠ .backward) (hkind : outcome.kind = reach.kind.outcome)
    (htarget : outcome.target = reach.target) (hskipped : outcome.skipped = reach.skipped)
    (h : advanceCompletedPhase workflow current (some outcome) pending = .ok workflow') :
    Orderly workflow' := by
  cases hleads with
  | next | unknown =>
      refine hfinished.linear (h ▸ ?_)
      simp only [advanceCompletedPhase, hkind, ReachKind.outcome]
  | backward => exact absurd rfl hahead
  | finish =>
      simp only [advanceCompletedPhase, hkind, ReachKind.outcome, Except.ok.injEq, hskipped] at h
      rw [← h]
      have hwhole : Finished workflow before current [] (after ++ []) := by
        rwa [List.append_nil]
      exact hwhole.skip
  | forward hsplit =>
      obtain ⟨mid, tail, rfl, rfl, htail⟩ := List.map_eq_append_iff.mp hsplit
      obtain ⟨next, rest, rfl, rfl, -⟩ := List.map_eq_cons_iff.mp htail
      simp only [advanceCompletedPhase, hkind, ReachKind.outcome, hskipped, htarget,
        Option.bind_some, hfinished.phase_skipped, bind_eq_ok_iff, Except.ok.injEq] at h
      obtain ⟨_, -, _, -, rfl⟩ := h
      exact hfinished.skip

/-! ## The lifecycle -/

theorem Stands.leads (hstands : Stands workflow before current after)
    (hnodup : (workflow.phases.map (·.id)).Nodup) (leadsTo : Text) :
    Leads (before.map (·.id)) current.id (after.map (·.id))
      (routeReach workflow.phaseOrder current.id leadsTo) :=
  leads_split hstands.phases hnodup leadsTo

/-- The current phase of a Story, in the status that was asked for. -/
theorem currentIn_stands {status : PhaseStatus} (hnodup : (workflow.phases.map (·.id)).Nodup)
    (hstands : Stands workflow before current after)
    (h : currentIn workflow status = .ok phase) : phase = current ∧ current.status = status := by
  unfold currentIn at h
  rw [hstands.currentPhase, Option.bind_some, phase_split hstands.phases hnodup] at h
  dsimp only at h
  split at h
  · next hstatus =>
    obtain rfl := Except.ok.inj h
    exact ⟨rfl, hstatus⟩
  · cases h

/-- A phase in work or in review is the current one of a Story that waits for nobody. -/
theorem Orderly.currentIn {status : PhaseStatus} (horderly : Orderly workflow)
    (hstatus : status ≠ .approved) (h : currentIn workflow status = .ok phase) :
    ∃ before after, Stands workflow before phase after ∧ phase.status = status ∧
      workflow.pendingDecision = none := by
  cases horderly.place with
  | resting hcurrent =>
      rw [Story.currentIn, hcurrent] at h
      cases h
  | working hstands _ hpending =>
      obtain ⟨rfl, hphase⟩ := currentIn_stands horderly.nodup hstands h
      exact ⟨_, _, hstands, hphase, hpending⟩
  | waiting hstands happroved =>
      exact absurd ((currentIn_stands horderly.nodup hstands h).2.symm.trans happroved) hstatus

/-- The current phase is written. -/
theorem Stands.update {written : Phase} (hstands : Stands workflow before current after)
    (hnodup : (workflow.phases.map (·.id)).Nodup) (hid : written.id = current.id) :
    Stands (workflow.update current.id fun _ => written) before written after ∧
      ((workflow.update current.id fun _ => written).phases.map (·.id)).Nodup := by
  have hphases := update_split hstands.phases hnodup fun _ => written
  refine ⟨⟨hphases, hstands.status, hid ▸ hstands.currentPhase, hstands.before, hstands.after⟩, ?_⟩
  rw [hstands.phases, List.map_append, List.map_cons] at hnodup
  rw [hphases, List.map_append, List.map_cons, hid]
  exact hnodup

theorem Stands.tidy_update {written : Phase} (hstands : Stands workflow before current after)
    (horderly : Orderly workflow) (hid : written.id = current.id) (htidy : Tidy written) :
    ∀ phase ∈ (workflow.update current.id fun _ => written).phases, Tidy phase := by
  intro phase hphase
  rw [(hstands.update horderly.nodup hid).1.phases, List.mem_append, List.mem_cons] at hphase
  rcases hphase with hphase | rfl | hphase
  · exact horderly.tidy phase (hstands.phases ▸ List.mem_append_left _ hphase)
  · exact htidy
  · exact horderly.tidy phase (hstands.phases ▸ by simp [hphase])

/-- The current phase is written, and stays active. -/
theorem Stands.stay {written : Phase} (hstands : Stands workflow before current after)
    (horderly : Orderly workflow) (hpending : workflow.pendingDecision = none)
    (hid : written.id = current.id) (hactive : Active written) (htidy : Tidy written) :
    Orderly (workflow.update current.id fun _ => written) := by
  obtain ⟨hwritten, hnodup⟩ := hstands.update horderly.nodup hid
  exact ⟨hnodup, hstands.tidy_update horderly hid htidy, .working hwritten hactive hpending⟩

/-- The current phase completes. -/
theorem Stands.finished {written : Phase} (hstands : Stands workflow before current after)
    (horderly : Orderly workflow) (hid : written.id = current.id)
    (happroved : written.status = .approved) :
    Finished (workflow.update current.id fun _ => written) before written [] after := by
  obtain ⟨hwritten, hnodup⟩ := hstands.update horderly.nodup hid
  exact ⟨hwritten.phases, hnodup, hstands.tidy_update horderly hid (.of_approved happroved),
    hstands.before, happroved, fun _ hphase => absurd hphase List.not_mem_nil, hstands.after,
    hstands.status⟩

/-- The first phases after the completed one keep their approval. -/
theorem Finished.retain (tables : UnicodeTables)
    (hfinished : Finished workflow before current [] after) (unchanged : Text → Bool) (now : Text) :
    ∃ passed fresh, Finished (retainUnchangedPhases tables workflow unchanged now current) before
      current passed fresh := by
  obtain ⟨old, passed, fresh, hsplit, hretain, hsame, hkept⟩ :
      ∃ old passed fresh, after = old ++ fresh ∧
        retainPhases tables workflow unchanged now after = passed ++ fresh ∧
        passed.map (·.pinned) = old.map (·.pinned) ∧
        ∀ phase ∈ passed, phase.status = .approved ∧ phase.retention = some phase.generation :=
    retainPhases_split unchanged now after
  have hretained : retainUnchangedPhases tables workflow unchanged now current
      = { workflow with phases := before ++ current :: (passed ++ fresh) } := by
    rw [retainUnchangedPhases_split hfinished.phases hfinished.nodup, List.nil_append, hretain]
  refine ⟨passed, fresh, by rw [hretained], ?_, ?_, hfinished.before, hfinished.approved, hkept,
    fun phase hphase => hfinished.fresh phase (hsplit ▸ List.mem_append_right _ hphase), ?_⟩
  · have hnodup := hfinished.nodup
    rw [hfinished.phases, hsplit] at hnodup
    rw [hretained]
    simpa [ids_of_pinned hsame] using hnodup
  · rw [hretained]
    intro phase hphase
    have hold : ∀ phase, phase ∈ before ∨ phase = current ∨ phase ∈ after → Tidy phase :=
      fun phase hphase => hfinished.tidy phase (by
        rw [hfinished.phases]
        simpa using hphase)
    rcases List.mem_append.mp hphase with hphase | hphase
    · exact hold phase (.inl hphase)
    rcases List.mem_cons.mp hphase with rfl | hphase
    · exact hold phase (.inr (.inl rfl))
    rcases List.mem_append.mp hphase with hphase | hphase
    · exact .of_approved (hkept phase hphase).1
    · exact hold phase (.inr (.inr (hsplit ▸ List.mem_append_right _ hphase)))
  · rw [hretained]
    exact hfinished.status

/-- **Completing a phase**: the Story advances, rests, or asks. -/
theorem completePhase_orderly {written : Phase} {outcome : Option Outcome}
    {completion : Completion} (horderly : Orderly workflow)
    (hstands : Stands workflow before current after) (hid : written.id = current.id)
    (happroved : written.status = .approved) (hchosen : Chosen workflow current.id outcome)
    (h : completePhase tables workflow written outcome completion = .ok workflow') :
    Orderly workflow' := by
  have hfinished := hstands.finished horderly hid happroved
  unfold completePhase at h
  rw [hid] at h
  dsimp only at h
  cases hchosen with
  | linear =>
      obtain ⟨passed, fresh, hretained⟩ := hfinished.retain tables
        completion.unchanged completion.now
      exact hretained.linear h
  | pause hdecision hkind =>
      rw [← hid] at hdecision
      have hafter : decisionAfter (workflow.update current.id fun _ => written) written.id
        = some _ := hdecision
      simp only [applyCompletionOutcome, advanceCompletedPhase, hkind, Option.all_some, reduceCtorEq,
        decide_false, Bool.false_eq_true, if_false, hafter, Option.map_some, Except.ok.injEq] at h
      subst h
      exact ⟨hfinished.nodup, hfinished.tidy,
        .waiting ⟨hfinished.phases, rfl, rfl, hstands.before, hstands.after⟩ happroved rfl⟩
  | loop _ _ _ _ _ hkind =>
      simp [applyCompletionOutcome, hkind] at h
  | @ahead decision route outcome hdecision hroute hahead hkind htarget hskipped =>
      by_cases hnext : outcome.kind = .next
      · obtain ⟨passed, fresh, hretained⟩ := hfinished.retain tables
          completion.unchanged completion.now
        simp only [applyCompletionOutcome, advanceCompletedPhase, hnext, Option.all_some,
          decide_true, if_true] at h
        exact hretained.linear h
      · rw [if_neg (by simpa using hnext), applyCompletionOutcome_ahead hahead hkind] at h
        refine hfinished.route ?_ hahead hkind htarget hskipped h
        rw [hid]
        exact hstands.leads horderly.nodup _

theorem submitPhase_orderly {submission : Submission} (horderly : Orderly workflow)
    (h : submitPhase tables workflow submission = .ok workflow') : Orderly workflow' := by
  simp only [submitPhase, bind_eq_ok_iff] at h
  obtain ⟨phase, hphase, decisionInputs, -, h⟩ := h
  obtain ⟨before, after, hstands, hstatus, hpending⟩ := horderly.currentIn (by decide) hphase
  have htidy : Tidy { phase with
      generation := submission.generation, decisionInputs, status := .awaitingApproval } := by
    have hmem : phase ∈ workflow.phases := hstands.phases ▸ by simp
    refine ⟨fun hawaiting => ?_, fun _ => (horderly.tidy phase hmem).retention ?_⟩
    · rcases hawaiting with hawaiting | hawaiting <;> cases hawaiting
    · rw [hstatus]
      rintro ⟨⟩
  split at h
  · rw [← Except.ok.inj h]
    exact hstands.stay horderly hpending rfl (.inr rfl) htidy
  · rw [bind_eq_ok_iff] at h
    obtain ⟨outcome, houtcome, h⟩ := h
    have hchosen := decisionOutcome_chosen houtcome
    split at h
    · exact completePhase_orderly horderly hstands (by rfl) (by rfl) hchosen h
    · rw [← Except.ok.inj h]
      exact hstands.stay horderly hpending rfl (.inr rfl) htidy

theorem approvePhase_orderly {decision : ApprovalRecord} {completion : Completion}
    (horderly : Orderly workflow)
    (h : approvePhase tables workflow decision completion = .ok workflow') : Orderly workflow' := by
  simp only [approvePhase, bind_eq_ok_iff] at h
  obtain ⟨phase, hphase, h⟩ := h
  obtain ⟨before, after, hstands, hstatus, hpending⟩ := horderly.currentIn (by decide) hphase
  split at h
  · rw [bind_eq_ok_iff] at h
    obtain ⟨outcome, houtcome, h⟩ := h
    split at h
    · have hfinished : Finished (workflow.update phase.id fun _ => { phase with
          approvals := phase.approvals ++ [decision], status := .approved }) before
          { phase with approvals := phase.approvals ++ [decision], status := .approved } [] after :=
        hstands.finished horderly rfl rfl
      refine loopBackForDecision_orderly hfinished.phases hfinished.nodup hpending ?_
        hstands.before h
      exact fun phase hmem => horderly.tidy phase (hstands.phases ▸ List.mem_append_left _ hmem)
    · exact completePhase_orderly horderly hstands (by rfl) (by rfl)
        (decisionOutcome_chosen houtcome) h
  · rw [← Except.ok.inj h]
    have hmem : phase ∈ workflow.phases := hstands.phases ▸ by simp
    refine hstands.stay horderly hpending (by rfl) (.inr hstatus)
      ⟨fun hawaiting => ?_, fun _ => (horderly.tidy phase hmem).retention ?_⟩
    · rcases hawaiting with hawaiting | hawaiting <;> rw [hstatus] at hawaiting <;> cases hawaiting
    · rw [hstatus]
      rintro ⟨⟩

theorem decideStory_orderly {option step : Option Text} {now : Text} (horderly : Orderly workflow)
    (h : decideStory workflow option step now = .ok workflow') : Orderly workflow' := by
  unfold decideStory at h
  split at h
  · cases h
  next pending hpending =>
  split at h
  · cases h
  next phase hphase =>
  obtain ⟨hfound, hcurrent⟩ := Option.filter_eq_some_iff.mp hphase
  obtain ⟨happroved, hcurrent⟩ := of_decide_eq_true hcurrent
  have hid : phase.id = pending.after := by simpa using List.find?_some hfound
  obtain ⟨before, after, hstands⟩ : ∃ before after, Stands workflow before phase after := by
    have same : ∀ {before after : List Phase} {current : Phase},
        Stands workflow before current after → phase = current := by
      intro before after current hstands
      rw [hstands.currentPhase, Option.some.injEq] at hcurrent
      rw [← hid, ← hcurrent, phase_split hstands.phases horderly.nodup] at hfound
      exact (Option.some.inj hfound).symm
    cases horderly.place with
    | resting hnone =>
        rw [hnone] at hcurrent
        cases hcurrent
    | working hstands | waiting hstands =>
        obtain rfl := same hstands
        exact ⟨_, _, hstands⟩
  obtain ⟨⟨route, reach⟩, hresolve, h⟩ := bind_eq_ok_iff.mp h
  dsimp only at h
  obtain ⟨leadsTo, hreach, -⟩ := resolveDecisionChoice_spec hresolve
  have hleads : Leads (before.map (·.id)) phase.id (after.map (·.id)) reach := by
    rw [hreach, ← hid]
    exact hstands.leads horderly.nodup leadsTo
  have hmem : ∀ phase ∈ before, Tidy phase := fun phase hphase =>
    horderly.tidy phase (hstands.phases ▸ List.mem_append_left _ hphase)
  have hfinished : Finished workflow before phase [] after :=
    ⟨hstands.phases, horderly.nodup, horderly.tidy, hstands.before, happroved,
      fun _ hphase => absurd hphase List.not_mem_nil, hstands.after, hstands.status⟩
  obtain ⟨outcome, ⟨hkind, htarget, hskipped⟩, h⟩ : ∃ outcome : Outcome,
      (outcome.kind = reach.kind.outcome ∧ outcome.target = reach.target ∧
        outcome.skipped = reach.skipped) ∧
      (if outcome.kind = .loop then
        loopBackForDecision { workflow with pendingDecision := none } phase outcome now
      else advanceCompletedPhase workflow phase
        (if outcome.kind = .next then none else some outcome) none) = .ok workflow' := by
    refine ⟨⟨pending.decision, pending.label, pending.after, reach.kind.outcome, some route.id,
      some route.label, reach.target, reach.skipped, if reach.kind = .backward then
        some (usedRounds workflow pending.decision).next else none, pending.maxRounds,
      pending.values, none, none⟩, ⟨rfl, rfl, rfl⟩, ?_⟩
    split at h <;> exact (bind_eq_ok_iff.mp h).choose_spec.2
  by_cases hback : reach.kind = .backward
  · rw [if_pos (by rw [hkind, hback]; rfl)] at h
    have hphases : ({ workflow with pendingDecision := none } : Workflow).phases
        = before ++ phase :: after := hstands.phases
    exact loopBackForDecision_orderly hphases horderly.nodup rfl hmem hstands.before h
  · rw [if_neg (hkind ▸ outcome_ne_loop hback)] at h
    split at h
    · exact hfinished.linear h
    · exact hfinished.route hleads hback hkind htarget hskipped h

theorem rejectPhase_orderly {target : Option Text} {unsubmitted : Bool} {now : Text}
    (horderly : Orderly workflow)
    (h : rejectPhase workflow target unsubmitted now = .ok workflow') : Orderly workflow' := by
  simp only [rejectPhase, bind_eq_ok_iff, failIf_eq_ok_iff, exists_const] at h
  obtain ⟨phase, hphase, hback, h⟩ := h
  obtain ⟨before, after, hstands, -, hpending⟩ :=
    horderly.currentIn (by cases unsubmitted <;> decide) hphase
  exact reopened_orderly hstands.phases horderly.nodup hpending
    (fun phase hphase => horderly.tidy phase (hstands.phases ▸ List.mem_append_left _ hphase))
    hstands.before hback h

/-- **The lifecycle keeps a Story orderly.** -/
theorem step_orderly {action : Action} (horderly : Orderly workflow)
    (h : step tables workflow action = .ok workflow') : Orderly workflow' := by
  cases action with
  | submit submission => exact submitPhase_orderly horderly h
  | approve decision completion => exact approvePhase_orderly horderly h
  | decide option choice now => exact decideStory_orderly horderly h
  | reject target unsubmitted now => exact rejectPhase_orderly horderly h
  | restart =>
      obtain rfl := Except.ok.inj h
      refine ⟨horderly.nodup, horderly.tidy, ?_⟩
      cases horderly.place with
      | resting hcurrent hpending hnone => exact .resting hcurrent hpending hnone
      | working hstands hactive hpending =>
          exact .working ⟨hstands.phases, hstands.status, hstands.currentPhase, hstands.before,
            hstands.after⟩ hactive hpending
      | waiting hstands happroved hpending =>
          exact .waiting ⟨hstands.phases, hstands.status, hstands.currentPhase, hstands.before,
            hstands.after⟩ happroved hpending

end Story

end SingularityFlow
