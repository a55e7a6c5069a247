/-
# The moves that the operations make

Each operation on a Story that stands somewhere is inverted to one `Move`.
Completing a phase, in its three variants, goes through `Completed`: the
state with the phase approved and the phases after it that kept theirs.
-/
import SingularityFlow.Story.Places

namespace SingularityFlow

open Ecma Approval

namespace Story

variable {tables : UnicodeTables} {workflow completed : Workflow}
  {before after old passed fresh : List Phase} {current current' : Phase}

/-! ## One phase of a Story -/

theorem phaseIndex_split (hphases : workflow.phases = before ++ current :: after)
    (hnodup : (workflow.phases.map (·.id)).Nodup) :
    phaseIndex workflow current.id = .ok before.length := by
  have hmem : current.id ∈ workflow.phaseOrder := by
    rw [Workflow.phaseOrder, hphases]
    simp
  have hidx : workflow.phaseOrder.idxOf current.id = before.length := by
    rw [Workflow.phaseOrder, hphases]
    exact idxOf_split (hphases ▸ hnodup)
  unfold phaseIndex
  rw [bind_eq_ok_iff]
  exact ⟨(), failIf_eq_ok_iff.mpr (not_or.mpr ⟨not_not.mpr hmem, not_not.mpr hnodup⟩), by rw [hidx]⟩

theorem phase_split (hphases : workflow.phases = before ++ current :: after)
    (hnodup : (workflow.phases.map (·.id)).Nodup) : workflow.phase current.id = some current := by
  rw [Workflow.phase, hphases]
  exact find?_split (hphases ▸ hnodup)

theorem update_split (hphases : workflow.phases = before ++ current :: after)
    (hnodup : (workflow.phases.map (·.id)).Nodup) (f : Phase → Phase) :
    (workflow.update current.id f).phases = before ++ f current :: after := by
  change workflow.phases.map _ = _
  rw [hphases]
  exact map_split (hphases ▸ hnodup) f

/-- A phase that a decision passes over. -/
def Phase.skip (phase : Phase) : Phase := { phase with status := .skipped }

/-- Phases are skipped where they stand together and have not started. -/
theorem skipPhaseRange_split {front mid rest : List Phase}
    (hphases : workflow.phases = front ++ (mid ++ rest))
    (hnodup : (workflow.phases.map (·.id)).Nodup) (hmid : ∀ phase ∈ mid, phase.status = .notStarted) :
    (skipPhaseRange workflow (mid.map (·.id))).phases
      = front ++ (mid.map Phase.skip ++ rest) := by
  rw [hphases, List.map_append, List.map_append] at hnodup
  obtain ⟨-, hmidrest, hfront⟩ := List.nodup_append.mp hnodup
  obtain ⟨-, -, hrest⟩ := List.nodup_append.mp hmidrest
  have keep : ∀ l : List Phase, (∀ phase ∈ l, phase.id ∉ mid.map (·.id)) →
      l.map (fun phase => if phase.id ∈ mid.map (·.id) ∧ phase.status = .notStarted then
        { phase with status := .skipped } else phase) = l := by
    intro l hl
    conv_rhs => rw [← List.map_id l]
    exact List.map_congr_left fun phase hphase => if_neg fun h => hl phase hphase h.1
  simp only [skipPhaseRange]
  rw [hphases, List.map_append, List.map_append, keep front, keep rest]
  · congr 2
    exact List.map_congr_left fun phase hphase =>
      if_pos ⟨List.mem_map_of_mem hphase, hmid phase hphase⟩
  · intro phase hphase hmem
    exact hrest _ hmem _ (List.mem_map_of_mem hphase) rfl
  · intro phase hphase hmem
    exact hfront _ (List.mem_map_of_mem hphase) _ (List.mem_append_left _ hmem) rfl

/-- After phases that keep their approval comes the first that does not. -/
theorem nextPhase_split {upcoming : Option Phase}
    (hphases : workflow.phases = before ++ current :: (passed ++ fresh))
    (hnodup : (workflow.phases.map (·.id)).Nodup)
    (hretained : ∀ phase ∈ passed,
      phase.status = .approved ∧ phase.retention = some phase.generation)
    (hfresh : ∀ phase ∈ fresh, phase.status = .notStarted)
    (h : nextPhaseAfterSkillAmendment workflow current = .ok upcoming) :
    upcoming = fresh.head? := by
  have hdrop : workflow.phases.drop (before.length + 1) = passed ++ fresh := by
    rw [hphases,
      show before ++ current :: (passed ++ fresh) = (before ++ [current]) ++ (passed ++ fresh) by simp,
      show before.length + 1 = (before ++ [current]).length by simp, List.drop_left]
  simp only [nextPhaseAfterSkillAmendment, phaseIndex_split hphases hnodup, bind_eq_ok_iff,
    Except.ok.injEq, exists_eq_left', hdrop] at h
  rw [← h, List.find?_append, List.find?_eq_none.mpr fun phase hphase => by
    simp [keepsApproval, hretained phase hphase]]
  cases fresh with
  | nil => rfl
  | cons phase rest =>
      rw [List.find?_cons_of_pos (by
        simp [keepsApproval, hfresh phase (List.mem_cons_self ..)])]
      rfl

/-- The phases that may keep their approval are those after the completed one. -/
theorem retainUnchangedPhases_split {unchanged : Text → Bool} {now : Text}
    (hphases : workflow.phases = before ++ current :: after)
    (hnodup : (workflow.phases.map (·.id)).Nodup) :
    retainUnchangedPhases tables workflow unchanged now current
      = { workflow with
          phases := before ++ current :: retainPhases tables workflow unchanged now after } := by
  have horder : workflow.phaseOrder = before.map (·.id) ++ current.id :: after.map (·.id) := by
    rw [Workflow.phaseOrder, hphases, List.map_append, List.map_cons]
  have hposition : positionAfter workflow.phaseOrder current.id = before.length + 1 := by
    rw [horder, positionAfter_split (horder ▸ hnodup), List.length_map]
  have hlength : before.length + 1 = (before ++ [current]).length := by simp
  simp only [retainUnchangedPhases, hposition, Nat.add_one_ne_zero, if_false]
  rw [hphases, show before ++ current :: after = (before ++ [current]) ++ after by simp, hlength,
    List.take_left, List.drop_left]
  simp

/-! ## Advancing -/

/-- The Story when its current phase has completed: `old` are the phases that
kept an approval, now `passed`. -/
structure Completed (workflow completed : Workflow) (before : List Phase)
    (current current' : Phase) (after old passed fresh : List Phase) : Prop where
  placed : Placed workflow before current after
  wellFormed : WellFormed workflow
  split : after = old ++ fresh
  phases : completed.phases = before ++ current' :: (passed ++ fresh)
  pinned : current'.pinned = current.pinned
  approved : current'.status = .approved
  same : passed.map (·.pinned) = old.map (·.pinned)
  retained : ∀ phase ∈ passed, phase.status = .approved ∧ phase.retention = some phase.generation
  status : completed.status = .inProgress
  kept : Kept workflow completed

theorem Completed.wellFormed' (h : Completed workflow completed before current current' after old
    passed fresh) : WellFormed completed := by
  refine h.wellFormed.of_pinned ?_ h.kept.definition
  rw [h.phases, h.placed.phases, h.split]
  simp [h.pinned, h.same]

theorem Completed.notStarted (h : Completed workflow completed before current current' after old
    passed fresh) : ∀ phase ∈ fresh, phase.status = .notStarted := fun phase hphase =>
  h.placed.after phase (h.split ▸ List.mem_append_right _ hphase)

theorem nextPhase_completed {upcoming : Option Phase}
    (hcompleted : Completed workflow completed before current current' after old passed fresh)
    (h : nextPhaseAfterSkillAmendment completed current' = .ok upcoming) :
    upcoming = fresh.head? :=
  nextPhase_split hcompleted.phases hcompleted.wellFormed'.nodup_ids hcompleted.retained
    hcompleted.notStarted h

/-- The Story arrives at the first phase that is not passed, or is closed. -/
theorem arrive_move {event : Event} {arriving : Workflow} {skipped ahead : List Phase}
    (hevent : event = .completed ∨ event = .chosen)
    (hcompleted : Completed workflow completed before current current' after old passed fresh)
    (hkept : Kept workflow arriving) (hstatus : arriving.status = .inProgress)
    (hpending : arriving.pendingDecision = none) (hwf : WellFormed arriving)
    {earlier : List Phase} (hafter : after = earlier ++ ahead)
    (hphases : arriving.phases = before ++ current' :: (skipped ++ ahead))
    (hpassed : Passed workflow.definition earlier skipped ahead) :
    Move workflow before current after event (arrive arriving ahead.head?) := by
  have hsettled : ∀ phase ∈ before ++ current' :: skipped, Settled phase := by
    intro phase hphase
    rcases List.mem_append.mp hphase with hphase | hphase
    · exact hcompleted.placed.before phase hphase
    · rcases List.mem_cons.mp hphase with rfl | hphase
      · exact .inl hcompleted.approved
      · exact hpassed.settled phase hphase
  cases ahead with
  | nil =>
      rw [List.append_nil] at hphases hafter
      subst hafter
      exact .finish hevent hphases hcompleted.pinned hcompleted.approved hpassed rfl rfl hpending
        ⟨hkept.definition, hkept.rounds⟩
  | cons next rest =>
      have hphases' : arriving.phases = (before ++ current' :: skipped) ++ next :: rest := by
        rw [hphases]; simp
      have hplaced : Placed (arrive arriving (some next)) (before ++ current' :: skipped)
          { next with status := .inProgress } rest :=
        ⟨update_split hphases' hwf.nodup_ids _, hstatus, rfl, hsettled, fun phase hphase =>
          hcompleted.placed.after phase (hafter ▸ by simp [hphase])⟩
      have hpassed' : Passed workflow.definition earlier skipped
          ({ next with status := .inProgress } :: rest) := by
        refine ⟨hpassed.pinned, hpassed.settled,
          fun haccepted phase hphase hskipped reader hreader => ?_⟩
        rcases List.mem_cons.mp hreader with rfl | hreader
        · exact hpassed.stranded haccepted phase hphase hskipped next (List.mem_cons_self ..)
        · exact hpassed.stranded haccepted phase hphase hskipped reader
            (List.mem_cons_of_mem _ hreader)
      exact .advance hevent hafter hplaced hcompleted.pinned hcompleted.approved rfl rfl hpassed'
        hpending ⟨hkept.definition, hkept.rounds⟩

/-- The linear path. -/
theorem advance_linear {event : Event} {workflow' : Workflow}
    (hevent : event = .completed ∨ event = .chosen)
    (hcompleted : Completed workflow completed before current current' after old passed fresh)
    (h : advanceCompletedPhase completed current' none none = .ok workflow') :
    Move workflow before current after event workflow' := by
  simp only [advanceCompletedPhase, bind_eq_ok_iff, Except.ok.injEq] at h
  obtain ⟨upcoming, hupcoming, rfl⟩ := h
  obtain rfl := nextPhase_completed hcompleted hupcoming
  refine arrive_move hevent hcompleted ⟨hcompleted.kept.definition, hcompleted.kept.rounds⟩
    hcompleted.status rfl (hcompleted.wellFormed'.of_pinned rfl rfl) hcompleted.split
    hcompleted.phases ⟨hcompleted.same, fun phase hphase => ?_, fun _ phase hphase hskipped => ?_⟩
  · exact .inl (hcompleted.retained phase hphase).1
  · rw [(hcompleted.retained phase hphase).1] at hskipped
    cases hskipped

/-- The Story that completed `current` and passes over the phases `mid`. -/
theorem skip_completed {mid ahead : List Phase}
    (hcompleted : Completed workflow completed before current current' after [] [] after)
    (hafter : after = mid ++ ahead) :
    (skipPhaseRange { completed with pendingDecision := none } (mid.map (·.id))).phases
        = before ++ current' :: (mid.map Phase.skip ++ ahead) ∧
      WellFormed (skipPhaseRange { completed with pendingDecision := none } (mid.map (·.id))) := by
  have hsplit : completed.phases = (before ++ [current']) ++ (mid ++ ahead) := by
    rw [hcompleted.phases, ← hafter]
    simp
  have hskipped : (skipPhaseRange { completed with pendingDecision := none }
      (mid.map (·.id))).phases = (before ++ [current']) ++ (mid.map Phase.skip ++ ahead) :=
    skipPhaseRange_split hsplit hcompleted.wellFormed'.nodup_ids fun phase hphase =>
      hcompleted.placed.after phase (hafter ▸ List.mem_append_left _ hphase)
  refine ⟨hskipped.trans (by simp), hcompleted.wellFormed'.of_pinned ?_ rfl⟩
  rw [hskipped, hsplit]
  simp [Function.comp_def, Phase.skip, Phase.pinned]

/-- The phase that a route leads to, past those it skips. -/
theorem phase_skipped {mid rest : List Phase} {next : Phase}
    (hcompleted : Completed workflow completed before current current' (mid ++ next :: rest) [] []
      (mid ++ next :: rest)) :
    (skipPhaseRange { completed with pendingDecision := none } (mid.map (·.id))).phase next.id
      = some next := by
  obtain ⟨hphases, hwf⟩ := skip_completed hcompleted rfl
  have hsplit : before ++ current' :: (mid.map Phase.skip ++ next :: rest)
      = (before ++ current' :: mid.map Phase.skip) ++ next :: rest := by simp
  exact phase_split (hphases.trans hsplit) hwf.nodup_ids

/-- Skipping, by a route that strands no phase ahead. -/
theorem skip_move {event : Event} (mid ahead : List Phase)
    (hevent : event = .completed ∨ event = .chosen)
    (hcompleted : Completed workflow completed before current current' after [] [] after)
    (hafter : after = mid ++ ahead)
    (hstranded : workflow.definition.Accepted → ∀ phase ∈ mid, ∀ reader ∈ ahead,
      phase.id ∉ reader.config.required) :
    Move workflow before current after event
      (arrive (skipPhaseRange { completed with pendingDecision := none } (mid.map (·.id)))
        ahead.head?) := by
  obtain ⟨hphases, hwf⟩ := skip_completed hcompleted hafter
  refine arrive_move hevent hcompleted ⟨hcompleted.kept.definition, hcompleted.kept.rounds⟩
    hcompleted.status rfl hwf hafter hphases ⟨?_, ?_, ?_⟩
  · simp [Function.comp_def, Phase.skip, Phase.pinned]
  · intro phase hphase
    obtain ⟨phase, -, rfl⟩ := List.mem_map.mp hphase
    exact .inr rfl
  · intro haccepted phase hphase _ reader hreader
    obtain ⟨phase, hmem, rfl⟩ := List.mem_map.mp hphase
    exact hstranded haccepted phase hmem reader hreader

theorem phaseById_of_mem {phases : List PhaseConfig} {config : PhaseConfig}
    (hnodup : (phases.map (·.id)).Nodup) (hmem : config ∈ phases) :
    phaseById phases config.id = some config := by
  obtain ⟨front, rest, rfl⟩ := List.append_of_mem hmem
  have hreverse : (front ++ config :: rest).reverse = rest.reverse ++ config :: front.reverse := by
    simp
  rw [phaseById, hreverse]
  refine find?_split ?_
  rw [← hreverse, List.map_reverse]
  exact List.nodup_reverse.mpr hnodup

/-- What the dependency rule says of the phases that a route skips and those
it still reaches. -/
theorem not_required_of_keepsReaders (front : List Phase) {mid ahead : List Phase} {next : Phase}
    {kind : ReachKind} (hwf : WellFormed workflow)
    (hphases : workflow.phases = front ++ (mid ++ next :: ahead))
    (h : KeepsReaders workflow.definition.phases ⟨kind, some next.id, mid.map (·.id)⟩) :
    ∀ phase ∈ mid, ∀ reader ∈ next :: ahead, phase.id ∉ reader.config.required := by
  intro phase hphase reader hreader hrequired
  have hphases' : workflow.phases = (front ++ mid) ++ next :: ahead := by rw [hphases]; simp
  have hidx : (workflow.phases.map (·.id)).idxOf next.id = (front ++ mid).length := by
    rw [hphases']
    exact idxOf_split (hphases' ▸ hwf.nodup_ids)
  have hdrop : (workflow.definition.phases.map (·.id)).drop
      ((workflow.definition.phases.map (·.id)).idxOf next.id) = (next :: ahead).map (·.id) := by
    rw [← hwf.phaseOrder, Workflow.phaseOrder, hidx, hphases', List.map_append,
      ← List.length_map (f := (·.id)), List.drop_left]
  have hconfig : reader.config ∈ workflow.definition.phases := by
    rw [← hwf.configs, hphases']
    exact List.mem_map_of_mem (List.mem_append_right _ hreader)
  exact h next.id rfl reader.id (hdrop ▸ List.mem_map_of_mem hreader) reader.config
    (phaseById_of_mem hwf.nodup hconfig) phase.id hrequired (List.mem_map_of_mem hphase)

/-- **Advancing along a route** that leads ahead. -/
theorem advance_route {event : Event} {workflow' : Workflow} {outcome : Outcome} {reach : Reach}
    {pending : Option PendingDecision} (hevent : event = .completed ∨ event = .chosen)
    (hcompleted : Completed workflow completed before current current' after [] [] after)
    (hleads : Leads (before.map (·.id)) current.id (after.map (·.id)) reach)
    (hkeeps : workflow.definition.Accepted → KeepsReaders workflow.definition.phases reach)
    (hahead : reach.kind ≠ .backward) (hkind : outcome.kind = reach.kind.outcome)
    (htarget : outcome.target = reach.target) (hskipped : outcome.skipped = reach.skipped)
    (h : advanceCompletedPhase completed current' (some outcome) pending = .ok workflow') :
    Move workflow before current after event workflow' := by
  cases hleads with
  | next | unknown =>
      refine advance_linear hevent hcompleted (h ▸ ?_)
      simp only [advanceCompletedPhase, hkind, ReachKind.outcome]
  | backward => exact absurd rfl hahead
  | finish =>
      simp only [advanceCompletedPhase, hkind, ReachKind.outcome, Except.ok.injEq, hskipped] at h
      rw [← h]
      exact skip_move after [] hevent hcompleted (by simp) fun _ _ _ reader hreader => by
        cases hreader
  | forward hsplit =>
      obtain ⟨mid, tail, rfl, rfl, htail⟩ := List.map_eq_append_iff.mp hsplit
      obtain ⟨next, rest, rfl, rfl, -⟩ := List.map_eq_cons_iff.mp htail
      have hnext := phase_skipped hcompleted
      simp only [advanceCompletedPhase, hkind, ReachKind.outcome, hskipped, htarget,
        Option.bind_some, hnext, bind_eq_ok_iff, Except.ok.injEq] at h
      obtain ⟨_, -, _, -, rfl⟩ := h
      exact skip_move mid (next :: rest) hevent hcompleted rfl fun haccepted =>
        not_required_of_keepsReaders (before ++ [current]) hcompleted.wellFormed
          (by rw [hcompleted.placed.phases]; simp) (hkeeps haccepted)

/-! ## Completing -/

/-- The outcomes that the decision after a phase can have. -/
inductive Chosen (workflow : Workflow) (phaseId : Text) : Option Outcome → Prop
  | linear : Chosen workflow phaseId none
  | pause {decision : Decision} {outcome : Outcome} {reason : PauseReason} :
      decisionAfter workflow phaseId = some decision → outcome.kind = .pause reason →
      Chosen workflow phaseId (some outcome)
  | loop {decision : Decision} {route : Route} {outcome : Outcome} :
      decisionAfter workflow phaseId = some decision → decision.kind ≠ .ask →
      route ∈ decision.routes →
      (routeReach workflow.phaseOrder phaseId route.leadsTo).kind = .backward →
      (usedRounds workflow decision.id).exhausted decision.maxRounds = false →
      outcome.kind = .loop → outcome.decision = decision.id →
      outcome.target = (routeReach workflow.phaseOrder phaseId route.leadsTo).target →
      Chosen workflow phaseId (some outcome)
  | ahead {decision : Decision} {route : Route} {outcome : Outcome} :
      decisionAfter workflow phaseId = some decision → route ∈ decision.routes →
      (routeReach workflow.phaseOrder phaseId route.leadsTo).kind ≠ .backward →
      outcome.kind = (routeReach workflow.phaseOrder phaseId route.leadsTo).kind.outcome →
      outcome.target = (routeReach workflow.phaseOrder phaseId route.leadsTo).target →
      outcome.skipped = (routeReach workflow.phaseOrder phaseId route.leadsTo).skipped →
      Chosen workflow phaseId (some outcome)

theorem decisionOutcome_chosen {phase : Phase} {outcome : Option Outcome}
    (h : decisionOutcome workflow phase = .ok outcome) : Chosen workflow phase.id outcome := by
  unfold decisionOutcome at h
  split at h
  · obtain rfl := Except.ok.inj h
    exact .linear
  next decision hdecision =>
  split at h
  · obtain rfl := Except.ok.inj h
    exact .pause hdecision rfl
  next hask =>
  split at h
  · cases h
  next values _ =>
  split at h
  · cases h
  next route hroute =>
  have hmem : route ∈ decision.routes := List.mem_of_find?_eq_some hroute
  dsimp only at h
  split at h
  · next hback =>
    split at h
    · obtain rfl := Except.ok.inj h
      exact .pause hdecision rfl
    · next hrounds =>
      obtain rfl := Except.ok.inj h
      exact .loop hdecision hask hmem hback (by simpa using hrounds) rfl rfl rfl
  · next hahead =>
    obtain rfl := Except.ok.inj h
    exact .ahead hdecision hmem hahead rfl rfl rfl

theorem decisionAfter_some {phaseId : Text} {decision : Decision}
    (h : decisionAfter workflow phaseId = some decision) :
    decision ∈ workflow.definition.decisions ∧ decision.after = phaseId :=
  ⟨List.mem_of_find?_eq_some h, by simpa using List.find?_some h⟩

/-- Each route of an accepted decision keeps the readers it reaches. -/
theorem keepsReaders_of_accepted {phaseId : Text} {decision : Decision} {route : Route}
    (hwf : WellFormed workflow) (hdecision : decisionAfter workflow phaseId = some decision)
    (hroute : route ∈ decision.routes) (haccepted : workflow.definition.Accepted) :
    KeepsReaders workflow.definition.phases
      (routeReach workflow.phaseOrder phaseId route.leadsTo) := by
  obtain ⟨hmem, rfl⟩ := decisionAfter_some hdecision
  rw [hwf.phaseOrder]
  exact (haccepted decision hmem).keeps route hroute

theorem leads_split (hphases : workflow.phases = before ++ current :: after)
    (hnodup : (workflow.phases.map (·.id)).Nodup) (leadsTo : Text) :
    Leads (before.map (·.id)) current.id (after.map (·.id))
      (routeReach workflow.phaseOrder current.id leadsTo) := by
  have horder : workflow.phaseOrder = before.map (·.id) ++ current.id :: after.map (·.id) := by
    rw [Workflow.phaseOrder, hphases, List.map_append, List.map_cons]
  rw [horder]
  exact routeReach_leads (horder ▸ hnodup) leadsTo

theorem Placed.leads (hplaced : Placed workflow before current after) (hwf : WellFormed workflow)
    (leadsTo : Text) : Leads (before.map (·.id)) current.id (after.map (·.id))
      (routeReach workflow.phaseOrder current.id leadsTo) :=
  leads_split hplaced.phases hwf.nodup_ids leadsTo

/-- Of the phases after the completed one, the first keep their approval. -/
theorem retainPhases_split (unchanged : Text → Bool) (now : Text) (l : List Phase) :
    ∃ old passed fresh, l = old ++ fresh ∧
      retainPhases tables workflow unchanged now l = passed ++ fresh ∧
      passed.map (·.pinned) = old.map (·.pinned) ∧
      ∀ phase ∈ passed, phase.status = .approved ∧ phase.retention = some phase.generation := by
  induction l with
  | nil => exact ⟨[], [], [], rfl, rfl, rfl, by simp⟩
  | cons phase rest ih =>
      rw [retainPhases]
      split
      · exact ⟨[], [], phase :: rest, rfl, rfl, rfl, by simp⟩
      next approvals _ =>
      split
      · obtain ⟨old, passed, fresh, hrest, hretain, hpinned, hkept⟩ := ih
        refine ⟨phase :: old, retain phase approvals now :: passed, fresh, by rw [hrest]; rfl,
          by rw [hretain]; rfl, ?_, List.forall_mem_cons.mpr ⟨⟨rfl, rfl⟩, hkept⟩⟩
        rw [List.map_cons, List.map_cons, hpinned]
        rfl
      · exact ⟨[], [], phase :: rest, rfl, rfl, rfl, by simp⟩

theorem completed_of_update {phase : Phase} (hwf : WellFormed workflow)
    (hplaced : Placed workflow before current after) (hpinned : phase.pinned = current.pinned)
    (happroved : phase.status = .approved) :
    Completed workflow (workflow.update phase.id fun _ => phase) before current phase after [] []
      after := by
  refine ⟨hplaced, hwf, rfl, ?_, hpinned, happroved, rfl, by simp, hplaced.status, rfl, rfl⟩
  rw [id_of_pinned hpinned]
  exact update_split hplaced.phases hwf.nodup_ids _

variable (tables) in
theorem completed_of_retain {unchanged : Text → Bool} {now : Text}
    (hcompleted : Completed workflow completed before current current' after [] [] after) :
    ∃ old passed fresh, Completed workflow
      (retainUnchangedPhases tables completed unchanged now current') before current current' after
      old passed fresh := by
  obtain ⟨old, passed, fresh, hsplit, hretain, hsame, hkept⟩ :
      ∃ old passed fresh, after = old ++ fresh ∧
        retainPhases tables completed unchanged now after = passed ++ fresh ∧
        passed.map (·.pinned) = old.map (·.pinned) ∧
        ∀ phase ∈ passed, phase.status = .approved ∧ phase.retention = some phase.generation :=
    retainPhases_split unchanged now after
  have hretained : retainUnchangedPhases tables completed unchanged now current'
      = { completed with phases := before ++ current' :: (passed ++ fresh) } := by
    rw [retainUnchangedPhases_split hcompleted.phases hcompleted.wellFormed'.nodup_ids,
      List.nil_append, hretain]
  rw [hretained]
  exact ⟨old, passed, fresh, hcompleted.placed, hcompleted.wellFormed, hsplit, rfl,
    hcompleted.pinned, hcompleted.approved, hsame, hkept, hcompleted.status,
    hcompleted.kept.definition, hcompleted.kept.rounds⟩

theorem pendingDecisionRecord_asked {phase : Phase} {decision : Decision} {outcome : Outcome}
    {reason : PauseReason} (h : decisionAfter workflow phase.id = some decision) :
    Asked workflow phase (pendingDecisionRecord phase decision outcome reason) := by
  refine ⟨rfl, decision, h, fun option hoption => ?_⟩
  obtain ⟨route, hroute, rfl⟩ := List.mem_map.mp hoption
  exact ⟨route, (List.mem_filter.mp hroute).1, rfl⟩

theorem applyCompletionOutcome_ahead {phase : Phase} {outcome : Outcome} {kind : ReachKind}
    (hahead : kind ≠ .backward) (hkind : outcome.kind = kind.outcome) :
    applyCompletionOutcome workflow phase (some outcome)
      = advanceCompletedPhase workflow phase (some outcome) none := by
  cases kind with
  | backward => exact absurd rfl hahead
  | next | «end» | unknown | forward => simp only [applyCompletionOutcome, hkind, ReachKind.outcome]

/-- **Completing a phase**: the Story advances, is closed, or asks. -/
theorem completePhase_move {phase : Phase} {outcome : Option Outcome} {completion : Completion}
    {workflow' : Workflow} (hwf : WellFormed workflow)
    (hplaced : Placed workflow before current after) (hpinned : phase.pinned = current.pinned)
    (happroved : phase.status = .approved) (hchosen : Chosen workflow current.id outcome)
    (h : completePhase tables workflow phase outcome completion = .ok workflow') :
    Move workflow before current after .completed workflow' := by
  have hid := id_of_pinned hpinned
  have hupdated := completed_of_update hwf hplaced hpinned happroved
  unfold completePhase at h
  dsimp only at h
  cases hchosen with
  | linear =>
      obtain ⟨old, passed, fresh, hcompleted⟩ := completed_of_retain tables hupdated
      exact advance_linear (.inl rfl) hcompleted h
  | pause hdecision hkind =>
      rw [← hid] at hdecision
      have hafter : decisionAfter (workflow.update phase.id fun _ => phase) phase.id = some _ :=
        hdecision
      simp only [applyCompletionOutcome, advanceCompletedPhase, hkind, Option.all_some, reduceCtorEq,
        decide_false, Bool.false_eq_true, if_false, hafter, Option.map_some, Except.ok.injEq] at h
      subst h
      refine .pause ⟨hupdated.phases, rfl, rfl, hplaced.before, hplaced.after⟩ hpinned happroved rfl
        ?_ ⟨rfl, rfl⟩
      exact pendingDecisionRecord_asked hdecision
  | loop _ _ _ _ _ hkind =>
      simp [applyCompletionOutcome, hkind] at h
  | @ahead decision route outcome hdecision hroute hahead hkind htarget hskipped =>
      by_cases hnext : outcome.kind = .next
      · obtain ⟨old, passed, fresh, hcompleted⟩ := completed_of_retain tables hupdated
        simp only [applyCompletionOutcome, advanceCompletedPhase, hnext, Option.all_some,
          decide_true, if_true] at h
        exact advance_linear (.inl rfl) hcompleted h
      · rw [if_neg (by simpa using hnext), applyCompletionOutcome_ahead hahead hkind] at h
        exact advance_route (.inl rfl) hupdated (hplaced.leads hwf _)
          (keepsReaders_of_accepted hwf hdecision hroute) hahead hkind htarget hskipped h

/-! ## Going back -/

theorem reopenPhaseRange_split {earlier rest : List Phase} {target : Phase} {now : Text}
    {retain : Bool} {workflow' : Workflow} (hphases : workflow.phases = earlier ++ target :: rest)
    (hnodup : (workflow.phases.map (·.id)).Nodup) (hpending : workflow.pendingDecision = none)
    (h : reopenPhaseRange workflow target.id now retain = .ok workflow') :
    workflow' = { workflow with
      phases := earlier ++ resetPhaseForRework target now .inProgress false
        :: rest.map fun phase => resetPhaseForRework phase now .notStarted retain
      pendingDecision := none
      currentPhase := some target.id
      status := .inProgress } := by
  simp only [reopenPhaseRange, resetPhaseRangeForRework, phaseIndex_split hphases hnodup,
    bind_eq_ok_iff, Except.ok.injEq, exists_eq_left', hpending, Option.filter_none] at h
  rw [← h, hphases, List.take_left, List.drop_left]
  rfl

/-- A split of the phases up to the current one, when that one is written. -/
theorem split_of_pinned {earlier mid : List Phase} {target : Phase}
    (hpinned : current'.pinned = current.pinned)
    (h : before ++ [current'] = earlier ++ target :: mid) :
    ∃ old mid', before ++ [current] = earlier ++ old :: mid' ∧ target.pinned = old.pinned ∧
      mid.map (·.pinned) = mid'.map (·.pinned) := by
  rcases List.eq_nil_or_concat mid with rfl | ⟨mid, last, rfl⟩
  · obtain ⟨rfl, hlast⟩ := List.append_inj' h rfl
    obtain rfl := List.singleton_inj.mp hlast
    exact ⟨current, [], rfl, hpinned, rfl⟩
  · have h : before ++ [current'] = (earlier ++ target :: mid) ++ [last] := by rw [h]; simp
    obtain ⟨rfl, hlast⟩ := List.append_inj' h rfl
    obtain rfl := List.singleton_inj.mp hlast
    exact ⟨target, mid ++ [current], by simp, rfl, by simp [hpinned]⟩

/-- **Going back** to a phase that is not after the current one. -/
theorem reopened {reviewed workflow' : Workflow} {targetId now : Text} {retain : Bool}
    (hwf : WellFormed workflow) (hplaced : Placed workflow before current after)
    (hphases : reviewed.phases = before ++ current' :: after)
    (hpinned : current'.pinned = current.pinned)
    (hdefinition : reviewed.definition = workflow.definition)
    (hpending : reviewed.pendingDecision = none)
    (hback : ¬ (targetId ∉ reviewed.phaseOrder ∨
      reviewed.phaseOrder.idxOf current.id < reviewed.phaseOrder.idxOf targetId))
    (h : reopenPhaseRange reviewed targetId now retain = .ok workflow') :
    ∃ earlier target rest, Reopened workflow workflow' before current after earlier target rest ∧
      target.id = targetId ∧ workflow'.decisionRounds = reviewed.decisionRounds := by
  obtain ⟨hmem, hle⟩ := not_or.mp hback
  rw [not_not] at hmem
  rw [not_lt] at hle
  have hids : reviewed.phases.map (·.id) = workflow.phases.map (·.id) := by
    rw [hphases, hplaced.phases]
    exact ids_of_pinned (by simp [hpinned])
  have hnodup : (reviewed.phases.map (·.id)).Nodup := hids ▸ hwf.nodup_ids
  obtain ⟨earlier, target, rest, hsplit, rfl⟩ := exists_split hmem
  have hlength : earlier.length ≤ before.length := by
    have htarget : reviewed.phaseOrder.idxOf target.id = earlier.length := by
      rw [Workflow.phaseOrder, hsplit]
      exact idxOf_split (hsplit ▸ hnodup)
    have hcurrent : reviewed.phaseOrder.idxOf current'.id = before.length := by
      rw [Workflow.phaseOrder, hphases]
      exact idxOf_split (hphases ▸ hnodup)
    rwa [← id_of_pinned hpinned, htarget, hcurrent] at hle
  obtain ⟨mid, hmid, rfl⟩ := split_le (hsplit.symm.trans hphases) hlength
  obtain ⟨old, mid', hsplit', htarget, hsame⟩ := split_of_pinned hpinned hmid
  have hresult := reopenPhaseRange_split hsplit hnodup hpending h
  subst hresult
  refine ⟨earlier, resetPhaseForRework target now .inProgress false, _,
    ⟨⟨rfl, rfl, rfl, fun phase hphase => hplaced.before phase (subset_of_split hmid hphase), ?_⟩,
      ⟨old, mid', hsplit', htarget, ?_⟩, rfl, rfl, hdefinition⟩, rfl, rfl⟩
  · intro phase hphase
    obtain ⟨phase, -, rfl⟩ := List.mem_map.mp hphase
    rfl
  · rw [List.map_map]
    change (mid ++ after).map (·.pinned) = _
    rw [List.map_append, List.map_append, hsame]

theorem countRound_frame (workflow : Workflow) (id : Text) :
    (countRound workflow id).phases = workflow.phases ∧
    (countRound workflow id).definition = workflow.definition ∧
    (countRound workflow id).pendingDecision = workflow.pendingDecision := by
  unfold countRound
  dsimp only
  split
  · exact ⟨rfl, rfl, rfl⟩
  · split <;> exact ⟨rfl, rfl, rfl⟩

theorem countRound_decisionRounds {reviewed : Workflow}
    (h : reviewed.decisionRounds = workflow.decisionRounds) (id : Text) :
    (countRound reviewed id).decisionRounds = (countRound workflow id).decisionRounds := by
  unfold countRound
  dsimp only
  rw [h]
  split
  · rfl
  · split <;> rfl

/-- Going back as a decision chose to, which counts a round of it. -/
theorem loopBackForDecision_reopened {reviewed workflow' : Workflow} {outcome : Outcome}
    {targetId now : Text} (hwf : WellFormed workflow)
    (hplaced : Placed workflow before current after)
    (hphases : reviewed.phases = before ++ current' :: after)
    (hpinned : current'.pinned = current.pinned)
    (hdefinition : reviewed.definition = workflow.definition)
    (hpending : reviewed.pendingDecision = none) (htarget : outcome.target = some targetId)
    (h : loopBackForDecision reviewed current' outcome now = .ok workflow') :
    ∃ earlier target rest, Reopened workflow workflow' before current after earlier target rest ∧
      target.id = targetId ∧
      workflow'.decisionRounds = (countRound reviewed outcome.decision).decisionRounds := by
  simp only [loopBackForDecision, htarget, Option.getD_some, bind_eq_ok_iff, failIf_eq_ok_iff,
    exists_const] at h
  obtain ⟨hback, h⟩ := h
  obtain ⟨hphases', hdefinition', hpending'⟩ := countRound_frame reviewed outcome.decision
  refine reopened hwf hplaced (hphases'.trans hphases) hpinned (hdefinition'.trans hdefinition)
    (hpending'.trans hpending) ?_ h
  rw [Workflow.phaseOrder, hphases', ← id_of_pinned hpinned]
  exact hback

theorem outcome_ne_loop {kind : ReachKind} (h : kind ≠ .backward) : kind.outcome ≠ .loop := by
  cases kind with
  | backward => exact absurd rfl h
  | next | «end» | unknown | forward => exact OutcomeKind.noConfusion

theorem Chosen.of_loop {phaseId : Text} {outcome : Outcome}
    (h : Chosen workflow phaseId (some outcome)) (hkind : outcome.kind = .loop) :
    ∃ decision route, decisionAfter workflow phaseId = some decision ∧ decision.kind ≠ .ask ∧
      route ∈ decision.routes ∧
      (routeReach workflow.phaseOrder phaseId route.leadsTo).kind = .backward ∧
      (usedRounds workflow decision.id).exhausted decision.maxRounds = false ∧
      outcome.decision = decision.id ∧
      outcome.target = (routeReach workflow.phaseOrder phaseId route.leadsTo).target := by
  cases h with
  | pause _ hpause => rw [hkind] at hpause; cases hpause
  | @loop decision route _ hdecision hask hroute hback hrounds _ hid htarget =>
      exact ⟨decision, route, hdecision, hask, hroute, hback, hrounds, hid, htarget⟩
  | ahead _ _ hahead houtcome => exact absurd (houtcome.symm.trans hkind) (outcome_ne_loop hahead)

theorem Leads.target_of_backward {before after : List Text} {current : Text} {reach : Reach}
    (h : Leads before current after reach) (hback : reach.kind = .backward) :
    ∃ target, reach.target = some target := by
  cases h with
  | backward => exact ⟨_, rfl⟩
  | next | finish | forward | unknown => cases hback

/-! ## Operations -/

variable (tables) in
/-- The event of an operation that is accepted. -/
def Action.event (workflow : Workflow) : Action → Event
  | .submit submission =>
      match currentIn workflow .inProgress with
      | .error _ => .stayed
      | .ok phase =>
          if phase.approvalPolicy.mode ≠ .required ∧ submission.reviewableFailure = false
              ∧ (phase.approvalPolicy.mode = .none ∨ submission.waiverEligible = true) then .completed
          else .stayed
  | .approve decision _ =>
      match currentIn workflow .awaitingApproval with
      | .error _ => .stayed
      | .ok phase =>
          if approvalRequirementsMet tables phase.approvalPolicy (phase.approvals ++ [decision]) then
            match decisionOutcome workflow phase with
            | .ok (some outcome) =>
                if outcome.kind = .loop then .looped outcome.decision (outcome.target.getD [])
                else .completed
            | _ => .completed
          else .stayed
  | .decide option step _ =>
      match workflow.pendingDecision.map fun pending =>
        resolveDecisionChoice workflow pending option step with
      | some (.ok (_, reach)) =>
          if reach.kind = .backward then .returned (reach.target.getD []) else .chosen
      | _ => .chosen
  | .reject target _ _ => .returned (target.getD (workflow.currentPhase.getD []))
  | .restart => .stayed

theorem currentIn_ok {status : PhaseStatus} {phase : Phase} (hwf : WellFormed workflow)
    (hplaced : Placed workflow before current after)
    (h : currentIn workflow status = .ok phase) : phase = current ∧ current.status = status := by
  unfold currentIn at h
  rw [hplaced.currentPhase, Option.bind_some, phase_split hplaced.phases hwf.nodup_ids] at h
  dsimp only at h
  split at h
  · next hstatus =>
    obtain rfl := Except.ok.inj h
    exact ⟨rfl, hstatus⟩
  · cases h

theorem update_placed (hwf : WellFormed workflow) (hplaced : Placed workflow before current after)
    {phase : Phase} (hpinned : phase.pinned = current.pinned) :
    Placed (workflow.update phase.id fun _ => phase) before phase after :=
  ⟨(id_of_pinned hpinned) ▸ update_split hplaced.phases hwf.nodup_ids _, hplaced.status,
    (id_of_pinned hpinned) ▸ hplaced.currentPhase, hplaced.before, hplaced.after⟩

/-- The current phase is written, and stays active. -/
theorem stay_move {phase : Phase} (hwf : WellFormed workflow)
    (hplaced : Placed workflow before current after) (hpending : workflow.pendingDecision = none)
    (hpinned : phase.pinned = current.pinned) (hactive : Active phase)
    (hrecorded : Recorded workflow current ∨ current.status = .inProgress →
      Recorded workflow phase) :
    Move workflow before current after .stayed (workflow.update current.id fun _ => phase) := by
  rw [← id_of_pinned hpinned]
  exact .stay (update_placed hwf hplaced hpinned) hpinned hactive hrecorded hpending ⟨rfl, rfl⟩

/-- A submission records the values that the decision reads. -/
theorem recordSubmittedDecisionInputs_recorded {phase phase' : Phase}
    {supplied : Option RecordedValues} {inputs : Option DecisionInputs}
    (h : recordSubmittedDecisionInputs workflow phase supplied = .ok inputs)
    (hid : phase'.id = phase.id) (hinputs : phase'.decisionInputs = inputs) :
    Recorded workflow phase' := by
  intro decision hdecision hask hnonempty
  have hfed : decisionFedBy workflow phase.id = some decision := by
    rw [decisionFedBy, ← hid, hdecision]
    exact if_pos (decide_eq_true ⟨hask, fun h => hnonempty (List.eq_nil_of_length_eq_zero h)⟩)
  simp only [recordSubmittedDecisionInputs, hfed] at h
  subst hinputs
  split at h
  · rw [recordedDecisionValues, ← Except.ok.inj h]
    simp
  · split at h
    · next hrecorded =>
      rw [recordedDecisionValues, ← Except.ok.inj h]
      exact hrecorded
    · cases h

theorem submitPhase_move {submission : Submission} {workflow' : Workflow}
    (hwf : WellFormed workflow) (hplaced : Placed workflow before current after)
    (hpending : workflow.pendingDecision = none)
    (h : submitPhase tables workflow submission = .ok workflow') :
    Move workflow before current after ((Action.submit submission).event tables workflow)
      workflow' := by
  simp only [submitPhase, bind_eq_ok_iff] at h
  obtain ⟨phase, hphase, decisionInputs, hinputs, h⟩ := h
  obtain ⟨rfl, -⟩ := currentIn_ok hwf hplaced hphase
  simp only [Action.event, hphase]
  split at h
  · next hmode =>
    rw [if_neg (by simp [hmode]), ← Except.ok.inj h]
    exact stay_move hwf hplaced hpending (by rfl) (.inr (by rfl)) fun _ =>
      recordSubmittedDecisionInputs_recorded hinputs (by rfl) (by rfl)
  · next hmode =>
    rw [bind_eq_ok_iff] at h
    obtain ⟨outcome, houtcome, h⟩ := h
    split at h
    · next hcompletes =>
      have hchosen := decisionOutcome_chosen houtcome
      rw [if_pos ⟨hmode, hcompletes⟩]
      exact completePhase_move hwf hplaced (by rfl) (by rfl) hchosen h
    · next hreview =>
      rw [if_neg fun hcompletes => hreview hcompletes.2, ← Except.ok.inj h]
      exact stay_move hwf hplaced hpending (by rfl) (.inr (by rfl)) fun _ =>
        recordSubmittedDecisionInputs_recorded hinputs (by rfl) (by rfl)

theorem approvePhase_move {decision : ApprovalRecord} {completion : Completion}
    {workflow' : Workflow} (hwf : WellFormed workflow)
    (hplaced : Placed workflow before current after) (hpending : workflow.pendingDecision = none)
    (h : approvePhase tables workflow decision completion = .ok workflow') :
    Move workflow before current after ((Action.approve decision completion).event tables workflow)
      workflow' := by
  simp only [approvePhase, bind_eq_ok_iff] at h
  obtain ⟨phase, hphase, h⟩ := h
  obtain ⟨rfl, hstatus⟩ := currentIn_ok hwf hplaced hphase
  simp only [Action.event, hphase]
  split at h
  · next hmet =>
    rw [if_pos hmet]
    rw [bind_eq_ok_iff] at h
    obtain ⟨outcome, houtcome, h⟩ := h
    have hchosen := decisionOutcome_chosen houtcome
    split at h
    · next outcome hloop =>
      obtain ⟨rfl, hkind⟩ := Option.filter_eq_some_iff.mp hloop
      rw [decide_eq_true_eq] at hkind
      obtain ⟨chosen, route, hdecision, hask, hroute, hback, hrounds, hid, htarget⟩ :=
        hchosen.of_loop hkind
      obtain ⟨target, hreach⟩ := (hplaced.leads hwf route.leadsTo).target_of_backward hback
      rw [hreach] at htarget
      have hupdated := update_split hplaced.phases hwf.nodup_ids
      obtain ⟨earlier, target, rest, hreopened, rfl, hrounds'⟩ :=
        loopBackForDecision_reopened hwf hplaced (hupdated _) (by rfl) rfl hpending htarget h
      simp only [houtcome, hkind, if_true, hid, htarget, Option.getD_some]
      refine .loop hreopened hdecision hask hroute hback hrounds ?_
      rw [hrounds', hid]
      exact countRound_decisionRounds (by rfl) _
    · next hloop =>
      have hmove := completePhase_move hwf hplaced (by rfl) (by rfl) hchosen h
      rw [houtcome]
      cases outcome with
      | none => exact hmove
      | some outcome =>
          have hkind : outcome.kind ≠ .loop := by simpa [Option.filter] using hloop
          simp only [hkind, if_false]
          exact hmove
  · next hunmet =>
    rw [if_neg hunmet, ← Except.ok.inj h]
    refine stay_move hwf hplaced hpending (by rfl) (.inr hstatus) fun hrecorded => ?_
    refine hrecorded.resolve_right ?_
    rw [hstatus]
    exact nofun

/-- What a person may choose: an option, or a step when the question allows it. -/
theorem resolveDecisionChoice_spec {pending : PendingDecision} {option step : Option Text}
    {route : PendingOption} {reach : Reach}
    (h : resolveDecisionChoice workflow pending option step = .ok (route, reach)) :
    ∃ leadsTo, reach = routeReach workflow.phaseOrder pending.after leadsTo ∧
      ((∃ entry ∈ pending.options, entry.leadsTo = leadsTo) ∨ route.id = js "step") := by
  simp only [resolveDecisionChoice, bind_eq_ok_iff] at h
  obtain ⟨chosen, hchosen, h⟩ := h
  have hkind : (∃ entry ∈ pending.options, entry.leadsTo = chosen.leadsTo) ∨
      chosen.id = js "step" ∧ option = none := by
    unfold chosenRoute at hchosen
    split at hchosen
    · split at hchosen
      · next entry hentry =>
        obtain rfl := Except.ok.inj hchosen
        exact .inl ⟨entry, List.mem_of_find?_eq_some hentry, rfl⟩
      · cases hchosen
    · simp only [bind_eq_ok_iff, Except.ok.injEq] at hchosen
      obtain ⟨_, -, _, -, rfl⟩ := hchosen
      exact .inr ⟨rfl, rfl⟩
    · cases hchosen
  split at h
  · obtain ⟨rfl, rfl⟩ := Prod.mk.inj (Except.ok.inj h)
    exact ⟨chosen.leadsTo, rfl, hkind.imp_right And.left⟩
  next decision _ =>
  split at h
  · cases h
  next allowed hallowed =>
  obtain ⟨rfl, rfl⟩ := Prod.mk.inj (Except.ok.inj h)
  have hoption := (of_decide_eq_true (Option.filter_eq_some_iff.mp hallowed).2).1
  refine ⟨chosen.leadsTo, rfl, hkind.imp_right fun hstep => ?_⟩
  rw [hstep.2] at hoption
  cases hoption

theorem decideStory_move {option step : Option Text} {now : Text} {pending : PendingDecision}
    {workflow' : Workflow} (hwf : WellFormed workflow)
    (hplaced : Placed workflow before current after) (happroved : current.status = .approved)
    (hpending : workflow.pendingDecision = some pending) (hasked : Asked workflow current pending)
    (h : decideStory workflow option step now = .ok workflow') :
    Move workflow before current after ((Action.decide option step now).event tables workflow)
      workflow' := by
  obtain ⟨hafter, decision, hdecision, hoptions⟩ := hasked
  have hquestion : (workflow.pendingDecision.filter fun _ => workflow.status = .inProgress)
      = some pending := by
    rw [hpending, hplaced.status]
    rfl
  have hphase : ((workflow.phase pending.after).filter fun phase => phase.status = .approved
      ∧ workflow.currentPhase = some phase.id) = some current := by
    rw [hafter, phase_split hplaced.phases hwf.nodup_ids]
    exact if_pos (decide_eq_true ⟨happroved, hplaced.currentPhase⟩)
  simp only [decideStory, hquestion, hphase] at h
  obtain ⟨⟨route, reach⟩, hresolve, h⟩ := bind_eq_ok_iff.mp h
  obtain ⟨leadsTo, hreach, hroute⟩ := resolveDecisionChoice_spec hresolve
  have hcheck : route.id = js "step" →
      assertChoiceKeepsDependencies workflow pending reach = .ok () := by
    intro hstep
    rw [if_pos hstep] at h
    exact (bind_eq_ok_iff.mp h).choose_spec.1
  have hkeeps : workflow.definition.Accepted →
      KeepsReaders workflow.definition.phases reach := by
    intro haccepted
    rcases hroute with ⟨entry, hentry, rfl⟩ | hstep
    · obtain ⟨route, hmem, heq⟩ := hoptions entry hentry
      rw [hreach, heq, hafter]
      exact keepsReaders_of_accepted hwf hdecision hmem haccepted
    · have hcheck := hcheck hstep
      unfold assertChoiceKeepsDependencies at hcheck
      split at hcheck
      · next hnil =>
        rw [hwf.configs] at hnil
        exact dependencyFailures_eq_nil hnil
      · cases hcheck
  have hleads : Leads (before.map (·.id)) current.id (after.map (·.id)) reach := by
    rw [hreach, hafter]
    exact hplaced.leads hwf leadsTo
  have hcompleted : Completed workflow workflow before current current after [] [] after :=
    ⟨hplaced, hwf, rfl, hplaced.phases, rfl, happroved, rfl, by simp, hplaced.status, rfl, rfl⟩
  obtain ⟨outcome, ⟨hkind, htarget, hskipped⟩, h⟩ : ∃ outcome : Outcome,
      (outcome.kind = reach.kind.outcome ∧ outcome.target = reach.target ∧
        outcome.skipped = reach.skipped) ∧
      (if outcome.kind = .loop then
        loopBackForDecision { workflow with pendingDecision := none } current outcome now
      else advanceCompletedPhase workflow current
        (if outcome.kind = .next then none else some outcome) none) = .ok workflow' := by
    refine ⟨⟨pending.decision, pending.label, pending.after, reach.kind.outcome, some route.id,
      some route.label, reach.target, reach.skipped, if reach.kind = .backward then
        some (usedRounds workflow pending.decision).next else none, pending.maxRounds,
      pending.values, none, none⟩, ⟨rfl, rfl, rfl⟩, ?_⟩
    split at h <;> exact (bind_eq_ok_iff.mp h).choose_spec.2
  simp only [Action.event, hpending, Option.map_some, hresolve]
  by_cases hback : reach.kind = .backward
  · obtain ⟨target, hreach⟩ := hleads.target_of_backward hback
    have hloop : outcome.kind = .loop := by rw [hkind, hback]; rfl
    rw [if_pos hloop] at h
    obtain ⟨earlier, target, rest, hreopened, rfl, -⟩ :=
      loopBackForDecision_reopened hwf hplaced (by exact hplaced.phases) rfl (by rfl) (by rfl)
        (htarget.trans hreach) h
    rw [if_pos hback, hreach]
    exact .back hreopened
  · rw [if_neg (hkind ▸ outcome_ne_loop hback)] at h
    rw [if_neg hback]
    split at h
    · exact advance_linear (.inr rfl) hcompleted h
    · exact advance_route (.inr rfl) hcompleted hleads hkeeps hback hkind htarget hskipped h

theorem rejectPhase_move {target : Option Text} {unsubmitted : Bool} {now : Text}
    {workflow' : Workflow} (hwf : WellFormed workflow)
    (hplaced : Placed workflow before current after) (hpending : workflow.pendingDecision = none)
    (h : rejectPhase workflow target unsubmitted now = .ok workflow') :
    Move workflow before current after ((Action.reject target unsubmitted now).event tables workflow)
      workflow' := by
  simp only [rejectPhase, bind_eq_ok_iff, failIf_eq_ok_iff, exists_const] at h
  obtain ⟨phase, hphase, hback, h⟩ := h
  obtain ⟨rfl, -⟩ := currentIn_ok hwf hplaced hphase
  obtain ⟨earlier, reached, rest, hreopened, hid, -⟩ :=
    reopened hwf hplaced hplaced.phases rfl rfl hpending hback h
  simp only [Action.event, hplaced.currentPhase, Option.getD_some, ← hid]
  exact .back hreopened

/-- No phase is submitted, reviewed or sent back while a question waits. -/
theorem currentIn_waiting {status : PhaseStatus} {phase : Phase} (hwf : WellFormed workflow)
    (hplaced : Placed workflow before current after) (happroved : current.status = .approved)
    (hstatus : status ≠ .approved) : currentIn workflow status ≠ .ok phase := fun h =>
  hstatus ((currentIn_ok hwf hplaced h).2.symm.trans happroved)

/-- **Every accepted operation is a move.** -/
theorem step_move {action : Action} {workflow' : Workflow} (hwf : WellFormed workflow)
    (hstanding : Standing workflow before current after) (haction : action ≠ .restart)
    (h : step tables workflow action = .ok workflow') :
    Move workflow before current after (action.event tables workflow) workflow' := by
  cases hstanding with
  | working hplaced _ hpending =>
      cases action with
      | submit submission => exact submitPhase_move hwf hplaced hpending h
      | approve decision completion => exact approvePhase_move hwf hplaced hpending h
      | reject target unsubmitted now => exact rejectPhase_move hwf hplaced hpending h
      | decide option choice now =>
          have h : decideStory workflow option choice now = .ok workflow' := h
          rw [decideStory, hpending, Option.filter_none] at h
          cases h
      | restart => exact absurd rfl haction
  | waiting hplaced happroved hpending hasked =>
      have hrefused {status : PhaseStatus} {phase : Phase} (hstatus : status ≠ .approved) :
          currentIn workflow status ≠ .ok phase := currentIn_waiting hwf hplaced happroved hstatus
      cases action with
      | decide option step now => exact decideStory_move hwf hplaced happroved hpending hasked h
      | submit submission =>
          obtain ⟨phase, hphase, -⟩ := bind_eq_ok_iff.mp h
          exact absurd hphase (hrefused (by decide))
      | approve decision completion =>
          obtain ⟨phase, hphase, -⟩ := bind_eq_ok_iff.mp h
          exact absurd hphase (hrefused (by decide))
      | reject target unsubmitted now =>
          obtain ⟨phase, hphase, -⟩ := bind_eq_ok_iff.mp h
          exact absurd hphase (hrefused (by cases unsubmitted <;> decide))
      | restart => exact absurd rfl haction

end Story

end SingularityFlow
