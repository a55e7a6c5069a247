/-
# Rules run out of rounds

While nobody sends work back or answers a question, a Story goes back by its
rules only, and each decision at most `maxRounds` times.  A loop-back takes at
most all the phases away again, so the phases that complete are bounded as
well: such a run ends closed, or waits for a person.

The rounds of a decision are counted under its id.  They are not counted for
an id that every object inherits, and the rule may then go back for ever.
-/
import SingularityFlow.Story.Dependencies

namespace SingularityFlow

open Ecma Approval

namespace Story

variable {tables : UnicodeTables} {start workflow workflow' : Workflow}
  {before after : List Phase} {current : Phase}

/-! ## What is counted -/

/-- The operations of a run in which nobody rejects or decides. -/
def Action.automatic : Action → Bool
  | .submit _ | .approve .. | .restart => true
  | .decide .. | .reject .. => false

def Event.isLoop : Event → Bool
  | .looped .. => true
  | _ => false

def Event.loops (id : Text) : Event → Bool
  | .looped decision _ => decision = id
  | _ => false

/-- The phases that completed in a run. -/
def completions (tables : UnicodeTables) (past : List (Workflow × Action)) : Nat :=
  past.countP fun entry => (entry.2.event tables entry.1).completes

/-- The times a run went back by the rule of a decision. -/
def loopBacks (tables : UnicodeTables) (past : List (Workflow × Action)) (id : Text) : Nat :=
  past.countP fun entry => (entry.2.event tables entry.1).loops id

/-- The decision goes back by a rule. -/
def GoesBack (definition : Definition) (decision : Decision) : Prop :=
  decision.kind ≠ .ask ∧ ∃ route ∈ decision.routes,
    (routeReach (definition.phases.map (·.id)) decision.after route.leadsTo).kind = .backward

/-- No decision that goes back by a rule has an inherited name. -/
def CountsRounds (definition : Definition) : Prop :=
  ∀ decision ∈ definition.decisions, GoesBack definition decision → decision.id ∉ inheritedNames

/-! ## Counters -/

/-- The stored count of a decision. -/
def storedRounds (workflow : Workflow) (id : Text) : Nat :=
  (mapGet (workflow.decisionRounds.getD []) id).getD 0

theorem usedRounds_eq {id : Text} (h : id ∉ inheritedNames) :
    usedRounds workflow id = .count (storedRounds workflow id) := by
  unfold usedRounds storedRounds
  cases workflow.decisionRounds with
  | none => rfl
  | some rounds =>
      simp only [Option.getD_some]
      cases mapGet rounds id with
      | some n => rfl
      | none => simp [h]

theorem storedRounds_countRound_self {id : Text} (h : id ∉ inheritedNames) :
    storedRounds (countRound workflow id) id = storedRounds workflow id + 1 := by
  unfold countRound storedRounds
  dsimp only
  split
  · next n hn => simp [hn]
  · next hnone => simp [h, hnone]

theorem storedRounds_countRound_of_ne {id id' : Text} (h : id' ≠ id) :
    storedRounds (countRound workflow id) id' = storedRounds workflow id' := by
  unfold countRound storedRounds
  dsimp only
  split
  · simp [mapGet_mapSet_of_ne h]
  · split
    · rfl
    · simp [mapGet_mapSet_of_ne h]

theorem storedRounds_congr (h : workflow'.decisionRounds = workflow.decisionRounds) (id : Text) :
    storedRounds workflow' id = storedRounds workflow id := by
  rw [storedRounds, storedRounds, h]

/-! ## The budget of a run -/

/-- What a run has used: `n` phases complete for each time that it went back,
and those before the place where the Story stands. -/
structure Budget (tables : UnicodeTables) (definition : Definition)
    (past : List (Workflow × Action)) (workflow : Workflow) : Prop where
  stored : ∀ id, id ∉ inheritedNames → storedRounds workflow id = loopBacks tables past id
  rounds : ∀ decision ∈ definition.decisions,
    loopBacks tables past decision.id ≤ decision.maxRounds.getD 0
  decided : ∀ entry ∈ past, (entry.2.event tables entry.1).isLoop = true →
    ∃ decision ∈ definition.decisions, (entry.2.event tables entry.1).loops decision.id = true
  total : completions tables past ≤ definition.phases.length
    * ((past.countP fun entry => (entry.2.event tables entry.1).isLoop) + 1)
  placed : ∀ before current after, Placed workflow before current after →
    completions tables past ≤ definition.phases.length
      * (past.countP fun entry => (entry.2.event tables entry.1).isLoop)
      + before.length + if workflow.pendingDecision.isSome then 1 else 0

section Counting

variable {definition : Definition} {past : List (Workflow × Action)} {action : Action}

theorem loops_of_isLoop_eq_false {event : Event} (h : event.isLoop = false) (id : Text) :
    event.loops id = false := by
  cases event with
  | looped => cases h
  | stayed | completed | chosen | returned => rfl

/-- An operation that does not go back by a rule counts no round. -/
theorem Budget.of_kept (hbudget : Budget tables definition past workflow)
    (hloop : (action.event tables workflow).isLoop = false)
    (hrounds : workflow'.decisionRounds = workflow.decisionRounds)
    (htotal : completions tables ((workflow, action) :: past) ≤ definition.phases.length
      * ((past.countP fun entry => (entry.2.event tables entry.1).isLoop) + 1))
    (hplaced : ∀ before current after, Placed workflow' before current after →
      completions tables ((workflow, action) :: past) ≤ definition.phases.length
        * (past.countP fun entry => (entry.2.event tables entry.1).isLoop)
        + before.length + if workflow'.pendingDecision.isSome then 1 else 0) :
    Budget tables definition ((workflow, action) :: past) workflow' := by
  have hsame : ∀ id, loopBacks tables ((workflow, action) :: past) id = loopBacks tables past id :=
    fun id => List.countP_cons_of_neg (by simp [loops_of_isLoop_eq_false hloop])
  have hloops : ((workflow, action) :: past).countP
        (fun entry => (entry.2.event tables entry.1).isLoop)
      = past.countP fun entry => (entry.2.event tables entry.1).isLoop :=
    List.countP_cons_of_neg (by simp [hloop])
  refine ⟨fun id hid => ?_, fun decision hmem => ?_, ?_, ?_, ?_⟩
  · rw [storedRounds_congr hrounds, hsame, hbudget.stored id hid]
  · rw [hsame]
    exact hbudget.rounds decision hmem
  · refine List.forall_mem_cons.mpr ⟨fun hlooped => ?_, hbudget.decided⟩
    rw [hloop] at hlooped
    cases hlooped
  · rwa [hloops]
  · rwa [hloops]

/-- Going back by a rule counts one round of its decision. -/
theorem Budget.of_loop {decision : Decision} {target : Text}
    (hbudget : Budget tables definition past workflow)
    (hids : (definition.decisions.map (·.id)).Nodup)
    (hevent : action.event tables workflow = .looped decision.id target)
    (hmem : decision ∈ definition.decisions) (hinherited : decision.id ∉ inheritedNames)
    (hexhausted : (usedRounds workflow decision.id).exhausted decision.maxRounds = false)
    (hrounds : workflow'.decisionRounds = (countRound workflow decision.id).decisionRounds)
    (hcompletions : completions tables past + 1 ≤ definition.phases.length
      * ((past.countP fun entry => (entry.2.event tables entry.1).isLoop) + 1)) :
    Budget tables definition ((workflow, action) :: past) workflow' := by
  have hloops : ((workflow, action) :: past).countP
        (fun entry => (entry.2.event tables entry.1).isLoop)
      = (past.countP fun entry => (entry.2.event tables entry.1).isLoop) + 1 :=
    List.countP_cons_of_pos (by simp [hevent, Event.isLoop])
  have hself : loopBacks tables ((workflow, action) :: past) decision.id
      = loopBacks tables past decision.id + 1 :=
    List.countP_cons_of_pos (by simp [hevent, Event.loops])
  have hother : ∀ id, id ≠ decision.id →
      loopBacks tables ((workflow, action) :: past) id = loopBacks tables past id := fun id hne =>
    List.countP_cons_of_neg (by simp [hevent, Event.loops, hne.symm])
  have hcompleted : completions tables ((workflow, action) :: past)
      = completions tables past + 1 :=
    List.countP_cons_of_pos (by simp [hevent, Event.completes])
  have hstored := hbudget.stored decision.id hinherited
  refine ⟨fun id hid => ?_, fun other hother' => ?_, ?_, ?_, ?_⟩
  · rw [storedRounds_congr hrounds]
    by_cases heq : id = decision.id
    · subst heq
      rw [storedRounds_countRound_self hinherited, hself, hstored]
    · rw [storedRounds_countRound_of_ne heq, hother id heq, hbudget.stored id hid]
  · by_cases heq : other.id = decision.id
    · obtain rfl := List.inj_on_of_nodup_map hids hother' hmem heq
      rw [usedRounds_eq hinherited, Rounds.exhausted, decide_eq_false_iff_not, not_le, hstored]
        at hexhausted
      rw [hself]
      exact hexhausted
    · rw [hother other.id heq]
      exact hbudget.rounds other hother'
  · refine List.forall_mem_cons.mpr ⟨fun _ => ⟨decision, hmem, ?_⟩, hbudget.decided⟩
    simp [hevent, Event.loops]
  · rw [hloops, hcompleted]
    exact hcompletions.trans (Nat.mul_le_mul_left _ (Nat.le_succ _))
  · intro before current after _
    rw [hloops, hcompleted]
    omega

theorem event_of_automatic (h : action.automatic = true) :
    action.event tables workflow ≠ .chosen ∧
      ∀ target, action.event tables workflow ≠ .returned target := by
  cases action with
  | submit submission => simp only [Action.event]; split <;> [skip; split] <;> simp
  | approve decision completion =>
      simp only [Action.event]
      split
      · simp
      · split
        · split <;> [split; skip] <;> simp
        · simp
  | restart => simp [Action.event]
  | decide => cases h
  | reject => cases h

/-- **One move** of an automatic run stays within the budget. -/
theorem Budget.step {event : Event} (hbudget : Budget tables definition past workflow)
    (hids : (definition.decisions.map (·.id)).Nodup) (hcounts : CountsRounds definition)
    (hwf : WellFormed workflow) (hdefinition : workflow.definition = definition)
    (hplaced : Placed workflow before current after) (hpending : workflow.pendingDecision = none)
    (hevent : action.event tables workflow = event) (hauto : action.automatic = true)
    (hmove : Move workflow before current after event workflow') :
    Budget tables definition ((workflow, action) :: past) workflow' := by
  obtain ⟨hchosen, hreturned⟩ : event ≠ .chosen ∧ ∀ target, event ≠ .returned target :=
    hevent ▸ event_of_automatic hauto
  have hwf' := (hmove.wellFormed hwf hplaced.phases).1
  have hlength : before.length + 1 + after.length = definition.phases.length := by
    rw [← hdefinition, ← hwf.configs, hplaced.phases]
    simp only [List.length_map, List.length_append, List.length_cons]
    omega
  -- the place after the move is the one that the move says
  have at_place : ∀ {before₂ after₂ : List Phase} {current₂ : Phase} {bound : Nat},
      Placed workflow' before₂ current₂ after₂ →
      completions tables ((workflow, action) :: past) ≤ bound + before₂.length →
      ∀ before' current' after', Placed workflow' before' current' after' →
        completions tables ((workflow, action) :: past) ≤ bound + before'.length := by
    intro before₂ after₂ current₂ bound hplaced₂ hle before' current' after' hplaced'
    obtain ⟨rfl, -, -⟩ := hplaced₂.unique hwf' hplaced'.phases hplaced'.currentPhase
    exact hle
  have hused := hbudget.placed _ _ _ hplaced
  rw [hpending] at hused
  simp only [Option.isSome_none, Bool.false_eq_true, if_false, Nat.add_zero] at hused
  have hone : completions tables ((workflow, action) :: past) ≤ completions tables past + 1 := by
    rw [completions, List.countP_cons]
    split <;> simp [completions]
  have htotal : definition.phases.length
      * ((past.countP fun entry => (entry.2.event tables entry.1).isLoop) + 1)
      = definition.phases.length
        * (past.countP fun entry => (entry.2.event tables entry.1).isLoop)
        + definition.phases.length := Nat.mul_succ _ _
  have hroom : completions tables past + 1 ≤ definition.phases.length
      * ((past.countP fun entry => (entry.2.event tables entry.1).isLoop) + 1) := by
    rw [htotal]
    omega
  cases hmove with
  | stay hplaced₂ _ _ _ hpending₂ hkept =>
      have hsame : completions tables ((workflow, action) :: past) = completions tables past :=
        List.countP_cons_of_neg (by simp [hevent, Event.completes])
      refine hbudget.of_kept (by rw [hevent]; rfl) hkept.rounds (hsame ▸ hbudget.total) ?_
      rw [hpending₂]
      exact at_place hplaced₂ (hsame ▸ hused)
  | @advance _ _ completed _ _ _ passed _ hahead _ hplaced₂ _ _ _ _ _ hpending₂ hkept =>
      obtain rfl := hahead.resolve_right hchosen
      refine hbudget.of_kept (by rw [hevent]; rfl) hkept.rounds (hone.trans hroom) ?_
      rw [hpending₂]
      refine at_place hplaced₂ ?_
      rw [List.length_append, List.length_cons]
      omega
  | finish hahead _ _ _ _ _ hcurrent _ hkept =>
      obtain rfl := hahead.resolve_right hchosen
      refine hbudget.of_kept (by rw [hevent]; rfl) hkept.rounds (hone.trans hroom) ?_
      intro before' current' after' hplaced'
      rw [hplaced'.currentPhase] at hcurrent
      cases hcurrent
  | pause hplaced₂ _ _ hpending₂ _ hkept =>
      refine hbudget.of_kept (by rw [hevent]; rfl) hkept.rounds (hone.trans hroom) ?_
      rw [hpending₂]
      intro before' current' after' hplaced'
      obtain ⟨rfl, -, -⟩ := hplaced₂.unique hwf' hplaced'.phases hplaced'.currentPhase
      simp only [Option.isSome_some, if_true]
      omega
  | @loop _ decision route target earlier rest hreopened hdecision hask hroute hback hexhausted
      hrounds =>
      obtain ⟨hmem, hafter⟩ := decisionAfter_some hdecision
      rw [hdefinition] at hmem
      have hinherited : decision.id ∉ inheritedNames := by
        refine hcounts decision hmem ⟨hask, route, hroute, ?_⟩
        rwa [hafter, ← hdefinition, ← hwf.phaseOrder]
      exact hbudget.of_loop hids hevent hmem hinherited hexhausted hrounds hroom
  | back _ => exact absurd rfl (hreturned _)

theorem budget_start (definition : Definition) :
    Budget tables definition [] (startStory definition) := by
  have hcompletions : completions tables [] = 0 := rfl
  have hloopBacks : ∀ id, loopBacks tables [] id = 0 := fun _ => rfl
  refine ⟨fun id _ => ?_, fun decision _ => ?_, fun _ h => absurd h List.not_mem_nil, ?_,
    fun _ _ _ _ => ?_⟩
  · rw [hloopBacks]
    rfl
  · rw [hloopBacks]
    exact Nat.zero_le _
  · rw [hcompletions]
    exact Nat.zero_le _
  · rw [hcompletions]
    exact Nat.zero_le _

end Counting

/-! ## No rule gets stuck -/

/-- What is proved of runs: a phase that is reviewed recorded its values. -/
def Ready (workflow : Workflow) : Prop :=
  ∀ before current after, Placed workflow before current after →
    current.status = .awaitingApproval → Recorded workflow current

theorem Recorded.congr {phase : Phase} (hdefinition : workflow'.definition = workflow.definition)
    (h : Recorded workflow phase) : Recorded workflow' phase := by
  intro decision hdecision
  rw [decisionAfter, hdefinition] at hdecision
  exact h decision hdecision

theorem Move.ready {event : Event} (hwf : WellFormed workflow)
    (hplaced : Placed workflow before current after) (hactive : Active current)
    (hready : Ready workflow) (h : Move workflow before current after event workflow') :
    Ready workflow' := by
  have hwf' := (h.wellFormed hwf hplaced.phases).1
  intro before' current' after' hplaced' hstatus
  have started : ∀ {before₂ after₂ : List Phase} {current₂ : Phase},
      Placed workflow' before₂ current₂ after₂ → current₂.status ≠ .awaitingApproval →
      Recorded workflow' current' := by
    intro before₂ after₂ current₂ hplaced₂ hne
    obtain ⟨-, rfl, -⟩ := hplaced₂.unique hwf' hplaced'.phases hplaced'.currentPhase
    exact absurd hstatus hne
  cases h with
  | stay hplaced₂ _ _ hrecorded _ hkept =>
      obtain ⟨-, rfl, -⟩ := hplaced₂.unique hwf' hplaced'.phases hplaced'.currentPhase
      refine (hrecorded ?_).congr hkept.definition
      rcases hactive with hactive | hactive
      · exact .inr hactive
      · exact .inl (hready _ _ _ hplaced hactive)
  | advance _ _ hplaced₂ _ _ _ hnext => exact started hplaced₂ (by rw [hnext]; exact nofun)
  | finish _ _ _ _ _ _ hcurrent =>
      rw [hplaced'.currentPhase] at hcurrent
      cases hcurrent
  | pause hplaced₂ _ happroved => exact started hplaced₂ (by rw [happroved]; exact nofun)
  | loop hreopened | back hreopened =>
      exact started hreopened.placed (by rw [hreopened.status]; exact nofun)

/-- The rules of an accepted decision decide every recorded values. -/
theorem chooseRoute_isSome {phases : List PhaseConfig} {decision : Decision}
    (h : Sound phases decision) (hask : decision.kind ≠ .ask) (values : RecordedValues) :
    ∃ route, chooseRoute decision values = some route := by
  obtain ⟨route, hroute, hwhen⟩ := h.fallback hask
  refine Option.isSome_iff_exists.mp ?_
  rw [chooseRoute, List.find?_isSome]
  exact ⟨route, hroute, by rw [hwhen]⟩

theorem decisionOutcome_ok {phase : Phase} (haccepted : workflow.definition.Accepted)
    (hrecorded : Recorded workflow phase) :
    ∃ outcome, decisionOutcome workflow phase = .ok outcome := by
  unfold decisionOutcome
  split
  · exact ⟨_, rfl⟩
  next decision hdecision =>
  by_cases hask : decision.kind = .ask
  · rw [if_pos hask]
    exact ⟨_, rfl⟩
  have hsound := haccepted decision (decisionAfter_some hdecision).1
  obtain ⟨values, hvalues⟩ :=
    Option.isSome_iff_exists.mp (hrecorded decision hdecision hask (hsound.inputs hask))
  obtain ⟨route, hroute⟩ := chooseRoute_isSome hsound hask values
  simp only [hask, if_false, hvalues, hroute]
  split <;> [split; skip] <;> exact ⟨_, rfl⟩

section Completing

variable {completed : Workflow} {old passed fresh : List Phase} {current' : Phase}

theorem linear_ok
    (hcompleted : Completed workflow completed before current current' after old passed fresh) :
    ∃ workflow', advanceCompletedPhase completed current' none none = .ok workflow' := by
  simp only [advanceCompletedPhase, nextPhaseAfterSkillAmendment,
    phaseIndex_split hcompleted.phases hcompleted.wellFormed'.nodup_ids, bind_eq_ok_iff,
    Except.ok.injEq, exists_eq_left']
  exact ⟨_, rfl⟩

theorem route_ok {outcome : Outcome} {reach : Reach}
    (hcompleted : Completed workflow completed before current current' after [] [] after)
    (hleads : Leads (before.map (·.id)) current.id (after.map (·.id)) reach)
    (hahead : reach.kind ≠ .backward) (hkind : outcome.kind = reach.kind.outcome)
    (htarget : outcome.target = reach.target) (hskipped : outcome.skipped = reach.skipped) :
    ∃ workflow', advanceCompletedPhase completed current' (some outcome) none = .ok workflow' := by
  cases hleads with
  | next | unknown =>
      obtain ⟨workflow', h⟩ := linear_ok hcompleted
      refine ⟨workflow', h ▸ ?_⟩
      simp only [advanceCompletedPhase, hkind, ReachKind.outcome]
  | backward => exact absurd rfl hahead
  | finish =>
      simp only [advanceCompletedPhase, hkind, ReachKind.outcome]
      exact ⟨_, rfl⟩
  | forward hsplit =>
      obtain ⟨mid, tail, rfl, rfl, htail⟩ := List.map_eq_append_iff.mp hsplit
      obtain ⟨next, rest, rfl, rfl, -⟩ := List.map_eq_cons_iff.mp htail
      obtain ⟨hphases, hwf⟩ := skip_completed hcompleted rfl
      have hnext := phase_skipped hcompleted
      have hidx : completed.phaseOrder.idxOf next.id = (before ++ current' :: mid).length := by
        have hsplit : completed.phases = (before ++ current' :: mid) ++ next :: rest := by
          rw [hcompleted.phases]
          simp
        rw [Workflow.phaseOrder, hsplit]
        exact idxOf_split (hsplit ▸ hcompleted.wellFormed'.nodup_ids)
      have hlater : ¬ completed.phaseOrder.idxOf next.id ≤ before.length := by
        rw [hidx, List.length_append, List.length_cons]
        omega
      simp only [advanceCompletedPhase, hkind, ReachKind.outcome, hskipped, htarget,
        Option.bind_some, hnext, phaseIndex_split hcompleted.phases
          hcompleted.wellFormed'.nodup_ids]
      exact ⟨_, bind_eq_ok_iff.mpr ⟨_, rfl, bind_eq_ok_iff.mpr
        ⟨(), failIf_eq_ok_iff.mpr hlater, rfl⟩⟩⟩

/-- A phase whose decision does not go back completes. -/
theorem completePhase_ok {phase : Phase} {outcome : Option Outcome} {completion : Completion}
    (hwf : WellFormed workflow) (hplaced : Placed workflow before current after)
    (hpinned : phase.pinned = current.pinned) (happroved : phase.status = .approved)
    (hchosen : Chosen workflow current.id outcome)
    (hloop : ∀ o, outcome = some o → o.kind ≠ .loop) :
    ∃ workflow', completePhase tables workflow phase outcome completion = .ok workflow' := by
  have hid := id_of_pinned hpinned
  have hupdated := completed_of_update hwf hplaced hpinned happroved
  unfold completePhase
  dsimp only
  cases hchosen with
  | linear =>
      obtain ⟨old, passed, fresh, hcompleted⟩ := completed_of_retain tables hupdated
      exact linear_ok hcompleted
  | pause hdecision hkind =>
      rw [← hid] at hdecision
      have hafter : decisionAfter (workflow.update phase.id fun _ => phase) phase.id = some _ :=
        hdecision
      simp only [applyCompletionOutcome, advanceCompletedPhase, hkind, Option.all_some, reduceCtorEq,
        decide_false, Bool.false_eq_true, if_false, hafter, Option.map_some]
      exact ⟨_, rfl⟩
  | loop _ _ _ _ _ hkind => exact absurd hkind (hloop _ rfl)
  | @ahead decision route outcome hdecision hroute hahead hkind htarget hskipped =>
      by_cases hnext : outcome.kind = .next
      · obtain ⟨old, passed, fresh, hcompleted⟩ := completed_of_retain tables hupdated
        simp only [applyCompletionOutcome, advanceCompletedPhase, hnext, Option.all_some,
          decide_true, if_true]
        exact linear_ok hcompleted
      · rw [if_neg (by simpa using hnext), applyCompletionOutcome_ahead hahead hkind]
        exact route_ok hupdated (hplaced.leads hwf _) hahead hkind htarget hskipped

/-- Going back to the current phase or one before it is always possible. -/
theorem loopBackForDecision_ok {reviewed : Workflow} {outcome : Outcome} {targetId now : Text}
    (hphases : reviewed.phases = before ++ current' :: after)
    (hnodup : (reviewed.phases.map (·.id)).Nodup) (htarget : outcome.target = some targetId)
    (hmem : targetId ∈ before.map (·.id) ++ [current'.id]) :
    ∃ workflow', loopBackForDecision reviewed current' outcome now = .ok workflow' := by
  have hsplit : (before ++ [current']).map (·.id) = before.map (·.id) ++ [current'.id] := by simp
  rw [← hsplit] at hmem
  obtain ⟨earlier, target, mid, hearlier, rfl⟩ := exists_split hmem
  have hphases' : reviewed.phases = earlier ++ target :: (mid ++ after) := by
    rw [hphases, show before ++ current' :: after = (before ++ [current']) ++ after by simp, hearlier]
    simp
  have horder : target.id ∈ reviewed.phaseOrder := by
    rw [Workflow.phaseOrder, hphases']
    simp
  have hle : ¬ reviewed.phaseOrder.idxOf current'.id < reviewed.phaseOrder.idxOf target.id := by
    have htarget : reviewed.phaseOrder.idxOf target.id = earlier.length := by
      rw [Workflow.phaseOrder, hphases']
      exact idxOf_split (hphases' ▸ hnodup)
    have hcurrent : reviewed.phaseOrder.idxOf current'.id = before.length := by
      rw [Workflow.phaseOrder, hphases]
      exact idxOf_split (hphases ▸ hnodup)
    have hlength := congrArg List.length hearlier
    simp only [List.length_append, List.length_cons, List.length_nil] at hlength
    omega
  obtain ⟨hframe, -, -⟩ := countRound_frame reviewed outcome.decision
  have hindex : phaseIndex (countRound reviewed outcome.decision) target.id = .ok earlier.length :=
    phaseIndex_split (hframe.trans hphases') (hframe ▸ hnodup)
  simp only [loopBackForDecision, htarget, Option.getD_some, reopenPhaseRange,
    resetPhaseRangeForRework, hindex]
  exact ⟨_, bind_eq_ok_iff.mpr ⟨(), failIf_eq_ok_iff.mpr (not_or.mpr ⟨not_not.mpr horder, hle⟩),
    bind_eq_ok_iff.mpr ⟨_, rfl, rfl⟩⟩⟩

theorem currentIn_of_placed {status : PhaseStatus} (hwf : WellFormed workflow)
    (hplaced : Placed workflow before current after) (hstatus : current.status = status) :
    currentIn workflow status = .ok current := by
  rw [currentIn, hplaced.currentPhase, Option.bind_some, phase_split hplaced.phases hwf.nodup_ids]
  exact if_pos hstatus

/-- The policy of a phase is the one it was configured with. -/
theorem WellFormed.policy (hwf : WellFormed workflow) {phase : Phase}
    (hphase : phase ∈ workflow.phases) :
    phase.config ∈ workflow.definition.phases ∧
      phase.approvalPolicy = (phaseState false phase.config).approvalPolicy := by
  have hmem : phase.pinned ∈ workflow.definition.phases.map
      fun config => (phaseState false config).pinned := by
    rw [← hwf.pinned]
    exact List.mem_map_of_mem hphase
  obtain ⟨config, hconfig, hpinned⟩ := List.mem_map.mp hmem
  obtain rfl : config = phase.config := congrArg (·.1) hpinned
  exact ⟨hconfig, congrArg (·.2) hpinned.symm⟩

/-- A rule goes back only from a phase that people review. -/
theorem required_of_loop {decision : Decision} {route : Route} (hwf : WellFormed workflow)
    (haccepted : workflow.definition.Accepted) (hphase : current ∈ workflow.phases)
    (hdecision : decisionAfter workflow current.id = some decision) (hask : decision.kind ≠ .ask)
    (hroute : route ∈ decision.routes)
    (hback : (routeReach workflow.phaseOrder current.id route.leadsTo).kind = .backward) :
    current.approvalPolicy.mode = .required := by
  obtain ⟨hmem, hafter⟩ := decisionAfter_some hdecision
  rw [hwf.phaseOrder, ← hafter] at hback
  obtain ⟨hconfig, hpolicy⟩ := hwf.policy hphase
  have hsigned := (haccepted decision hmem).signed hask route hroute hback
  rw [hafter, show current.id = current.config.id from rfl, phaseById_of_mem hwf.nodup hconfig,
    Option.bind_some] at hsigned
  obtain ⟨policy, happroval, hmode⟩ := Option.map_eq_some_iff.mp hsigned
  rw [hpolicy, phaseState, happroval]
  exact hmode

/-- A phase that is worked on can be submitted, with the values it must
record and no others. -/
theorem submitPhase_ok {submission : Submission} (hwf : WellFormed workflow)
    (haccepted : workflow.definition.Accepted) (hplaced : Placed workflow before current after)
    (hstatus : current.status = .inProgress)
    (hvalues : submission.values.isSome = (decisionFedBy workflow current.id).isSome) :
    ∃ workflow', submitPhase tables workflow submission = .ok workflow' := by
  have hphase : current ∈ workflow.phases := by
    rw [hplaced.phases]
    simp
  obtain ⟨inputs, hinputs⟩ : ∃ inputs,
      recordSubmittedDecisionInputs workflow current submission.values = .ok inputs := by
    unfold recordSubmittedDecisionInputs
    cases hfed : decisionFedBy workflow current.id with
    | none =>
        rw [hfed, Option.isSome_none] at hvalues
        exact ⟨_, bind_eq_ok_iff.mpr ⟨(), failIf_eq_ok_iff.mpr (by simp [hvalues]), rfl⟩⟩
    | some decision =>
        rw [hfed, Option.isSome_some] at hvalues
        obtain ⟨values, hsome⟩ := Option.isSome_iff_exists.mp hvalues
        rw [hsome]
        exact ⟨_, rfl⟩
  rw [submitPhase, currentIn_of_placed hwf hplaced hstatus]
  simp only [bind_eq_ok_iff, Except.ok.injEq, exists_eq_left', hinputs]
  by_cases hmode : current.approvalPolicy.mode = .required
  · rw [if_pos hmode]
    exact ⟨_, rfl⟩
  rw [if_neg hmode]
  have hrecorded : Recorded workflow
      { current with generation := submission.generation, decisionInputs := inputs } :=
    recordSubmittedDecisionInputs_recorded hinputs rfl rfl
  obtain ⟨outcome, houtcome⟩ := decisionOutcome_ok haccepted hrecorded
  have hchosen := decisionOutcome_chosen houtcome
  split
  · have hloop : ∀ o, outcome = some o → o.kind ≠ .loop := by
      rintro o rfl hkind
      obtain ⟨decision, route, hdecision, hask, hroute, hback, -⟩ := hchosen.of_loop hkind
      exact hmode (required_of_loop hwf haccepted hphase hdecision hask hroute hback)
    obtain ⟨workflow', h⟩ : ∃ workflow', completePhase tables workflow
        { current with
          generation := submission.generation
          decisionInputs := inputs
          status := .approved } outcome submission.completion = .ok workflow' :=
      completePhase_ok hwf hplaced rfl rfl hchosen hloop
    exact ⟨workflow', bind_eq_ok_iff.mpr ⟨outcome, houtcome, h⟩⟩
  · exact ⟨_, bind_eq_ok_iff.mpr ⟨outcome, houtcome, rfl⟩⟩

/-- A review of a phase is never refused by what follows the phase. -/
theorem approvePhase_ok {decision : ApprovalRecord} {completion : Completion}
    (hwf : WellFormed workflow) (haccepted : workflow.definition.Accepted)
    (hplaced : Placed workflow before current after) (hstatus : current.status = .awaitingApproval)
    (hrecorded : Recorded workflow current) :
    ∃ workflow', approvePhase tables workflow decision completion = .ok workflow' := by
  obtain ⟨outcome, houtcome⟩ := decisionOutcome_ok haccepted hrecorded
  have hchosen := decisionOutcome_chosen houtcome
  rw [approvePhase, currentIn_of_placed hwf hplaced hstatus]
  simp only [bind_eq_ok_iff, Except.ok.injEq, exists_eq_left', houtcome]
  split
  · simp only [bind, Except.bind]
    split
    · next loop hloop =>
      obtain ⟨rfl, hkind⟩ := Option.filter_eq_some_iff.mp hloop
      rw [decide_eq_true_eq] at hkind
      obtain ⟨_, route, -, -, -, hback, -, -, htarget⟩ := hchosen.of_loop hkind
      have hleads := hplaced.leads hwf route.leadsTo
      obtain ⟨target, hreach⟩ := hleads.target_of_backward hback
      have hmem : target ∈ before.map (·.id) ++ [current.id] := by
        generalize routeReach workflow.phaseOrder current.id route.leadsTo = reach at hleads hback hreach
        cases hleads with
        | backward hmem => exact Option.some.inj hreach ▸ hmem
        | next | finish | forward | unknown => cases hback
      have hphases := update_split hplaced.phases hwf.nodup_ids
      refine loopBackForDecision_ok (hphases _) ?_ (htarget.trans hreach) hmem
      have hnodup := hwf.nodup_ids
      rw [hplaced.phases, List.map_append, List.map_cons] at hnodup
      rw [hphases, List.map_append, List.map_cons]
      exact hnodup
    · next hloop =>
      refine completePhase_ok hwf hplaced rfl rfl hchosen fun o ho hkind => ?_
      subst ho
      simp [Option.filter, hkind] at hloop
  · exact ⟨_, rfl⟩

end Completing

/-! ## Runs without people's choices -/

/-- The Story goes on without a choice: the phase that is worked on can be
submitted, or reviews of the phase that waits for them are accepted. -/
def Continues (tables : UnicodeTables) (workflow : Workflow) : Prop :=
  (∃ current, currentIn workflow .inProgress = .ok current ∧
    ∀ submission, submission.values.isSome = (decisionFedBy workflow current.id).isSome →
      ∃ workflow', step tables workflow (.submit submission) = .ok workflow') ∨
  ∃ current, currentIn workflow .awaitingApproval = .ok current ∧
    ∀ decision completion, ∃ workflow', step tables workflow (.approve decision completion)
      = .ok workflow'

/-- What holds along an automatic run. -/
structure Automatic (tables : UnicodeTables) (definition : Definition)
    (past : List (Workflow × Action)) (workflow : Workflow) : Prop where
  wellFormed : WellFormed workflow
  same : workflow.definition = definition
  shape : Shape workflow
  ready : Ready workflow
  budget : Budget tables definition past workflow

theorem automatic_start {definition : Definition} (hphases : definition.phases ≠ [])
    (hnodup : (definition.phases.map (·.id)).Nodup) :
    Automatic tables definition [] (startStory definition) := by
  have hbegins := startStory_begins hphases hnodup
  refine ⟨hbegins.wellFormed, rfl, hbegins.shape, fun before current after hplaced hstatus => ?_,
    budget_start definition⟩
  obtain ⟨first, rest, hfirst, hstarted⟩ := hbegins.first
  obtain ⟨-, rfl, -⟩ := hfirst.unique hbegins.wellFormed hplaced.phases hplaced.currentPhase
  rw [hstarted] at hstatus
  cases hstatus

theorem Automatic.step {definition : Definition} {past : List (Workflow × Action)} {action : Action}
    (hids : (definition.decisions.map (·.id)).Nodup) (hcounts : CountsRounds definition)
    (h : Automatic tables definition past workflow) (hauto : action.automatic = true)
    (hstep : step tables workflow action = .ok workflow') :
    Automatic tables definition ((workflow, action) :: past) workflow' := by
  obtain ⟨hwf, hdefinition, hshape, hready, hbudget⟩ := h
  obtain ⟨hwf', hdefinition', hshape'⟩ := step_shape hwf hshape hstep
  suffices hrest : Ready workflow' ∧ Budget tables definition ((workflow, action) :: past) workflow'
    from ⟨hwf', hdefinition'.trans hdefinition, hshape', hrest.1, hrest.2⟩
  by_cases haction : action = .restart
  · subst haction
    obtain rfl := Except.ok.inj hstep
    have hplaced : ∀ {before current after},
        Placed { workflow with inheritedCounts := [] } before current after →
        Placed workflow before current after := fun h =>
      ⟨h.phases, h.status, h.currentPhase, h.before, h.after⟩
    refine ⟨fun before current after h => hready before current after (hplaced h),
      hbudget.of_kept rfl rfl ?_ fun before current after h => ?_⟩
    · exact hbudget.total
    · exact hbudget.placed before current after (hplaced h)
  · cases hshape with
    | closed _ hcurrent hpending _ => exact absurd (step_closed hcurrent hpending hstep) haction
    | standing hstanding =>
        have hmove := step_move hwf hstanding haction hstep
        cases hstanding with
        | working hplaced hactive hpending =>
            exact ⟨hmove.ready hwf hplaced hactive hready, hbudget.step hids hcounts hwf hdefinition
              hplaced hpending rfl hauto hmove⟩
        | waiting hplaced happroved _ _ =>
            have hrefused {status : PhaseStatus} {phase : Phase} (hstatus : status ≠ .approved) :
                currentIn workflow status ≠ .ok phase :=
              currentIn_waiting hwf hplaced happroved hstatus
            cases action with
            | submit submission =>
                obtain ⟨phase, hphase, -⟩ := bind_eq_ok_iff.mp hstep
                exact absurd hphase (hrefused (by decide))
            | approve decision completion =>
                obtain ⟨phase, hphase, -⟩ := bind_eq_ok_iff.mp hstep
                exact absurd hphase (hrefused (by decide))
            | restart => exact absurd rfl haction
            | decide => cases hauto
            | reject => cases hauto

theorem Automatic.continues {definition : Definition} {past : List (Workflow × Action)}
    (h : Automatic tables definition past workflow) (haccepted : definition.Accepted) :
    workflow.status = .closed ∨ workflow.pendingDecision.isSome = true ∨
      Continues tables workflow := by
  have haccepted : workflow.definition.Accepted := h.same ▸ haccepted
  cases h.shape with
  | closed hstatus => exact .inl hstatus
  | standing hstanding =>
      cases hstanding with
      | waiting _ _ hpending _ => exact .inr (.inl (hpending ▸ rfl))
      | working hplaced hactive _ =>
          refine .inr (.inr ?_)
          rcases hactive with hstatus | hstatus
          · exact .inl ⟨_, currentIn_of_placed h.wellFormed hplaced hstatus, fun submission hvalues =>
              submitPhase_ok h.wellFormed haccepted hplaced hstatus hvalues⟩
          · exact .inr ⟨_, currentIn_of_placed h.wellFormed hplaced hstatus, fun _ _ =>
              approvePhase_ok h.wellFormed haccepted hplaced hstatus (h.ready _ _ _ hplaced hstatus)⟩

/-- **Rules run out of rounds**: in every run of a Story with accepted
decisions in which nobody rejects or decides, where the decisions that go back
by a rule have ids that objects do not inherit. -/
theorem run_rounds {drafts : Option (List DecisionDraft)} {context : DecisionContext}
    {definition : Definition} {past : List (Workflow × Action)}
    (hnonempty : definition.phases ≠ []) (hnodup : (definition.phases.map (·.id)).Nodup)
    (hphases : context.phases = definition.phases)
    (haccepted : normalizeDecisions tables drafts context = .ok definition.decisions)
    (hcounts : CountsRounds definition) (hauto : ∀ entry ∈ past, entry.2.automatic = true)
    (h : Run (step tables) (startStory definition) past workflow) :
    (∀ decision ∈ definition.decisions,
      loopBacks tables past decision.id ≤ decision.maxRounds.getD 0) ∧
    completions tables past ≤ definition.phases.length
      * (1 + (definition.decisions.map fun decision => decision.maxRounds.getD 0).sum) ∧
    (workflow.status = .closed ∨ workflow.pendingDecision.isSome = true ∨
      Continues tables workflow) := by
  obtain ⟨hsound, hids, -⟩ := normalizeDecisions_spec haccepted
  have hall := Run.invariant (Automatic tables definition) (fun _ action => action.automatic = true)
    h hauto (automatic_start hnonempty hnodup)
    fun hinv hauto hstep => hinv.step hids hcounts hauto hstep
  refine ⟨hall.budget.rounds, hall.budget.total.trans (Nat.mul_le_mul_left _ ?_),
    hall.continues fun decision hmem => hphases ▸ hsound decision hmem⟩
  rw [Nat.add_comm 1]
  have hloops := countP_le_sum_countP (fun (decision : Decision) (entry : Workflow × Action) =>
    (entry.2.event tables entry.1).loops decision.id) hall.budget.decided
  exact Nat.succ_le_succ (hloops.trans (List.sum_le_sum hall.budget.rounds))

section Example

/-- One phase, and a loop back to it that has one round. -/
def loopingContext : DecisionContext :=
  ⟨js "review", [signedPhase (js "sign")], [js "leads"], none⟩

def oneRound (id : Text) : Option (List DecisionDraft) :=
  some [{ qualityLoop id (js "sign") with maxRounds := some (Number.ofNat 1) }]

theorem oneRound_accepted : normalizeDecisions asciiTables (oneRound (js "quality")) loopingContext
    = .ok (acceptedStory (oneRound (js "quality")) loopingContext).definition.decisions :=
  ok_of_isSome [] (by decide +kernel)

theorem run_rounds_looped : ∃ past workflow,
    runFrom (step asciiTables) ([], acceptedStory (oneRound (js "quality")) loopingContext)
      [submitVerdict (js "good") (js "no"), approveAsLead] = .ok (past, workflow) ∧
    completions asciiTables past ≤ 1 * (1 + 1) := by
  obtain ⟨⟨past, workflow⟩, hrun, hauto⟩ := exists_ok_of_any
    (x := runFrom (step asciiTables) ([], acceptedStory (oneRound (js "quality")) loopingContext)
      [submitVerdict (js "good") (js "no"), approveAsLead])
    (p := fun run => run.1.all fun entry => entry.2.automatic) (by decide +kernel)
  have hcounts : ∀ decision ∈
      (acceptedStory (oneRound (js "quality")) loopingContext).definition.decisions,
      decision.id ∉ inheritedNames := by decide +kernel
  obtain ⟨-, hcompletions, -⟩ := run_rounds (by decide) (by decide) rfl oneRound_accepted
    (fun decision hmem _ => hcounts decision hmem) (List.all_eq_true.mp hauto)
    (Run.of_runFrom .start hrun)
  have hrounds : (acceptedStory (oneRound (js "quality")) loopingContext).definition.phases.length
      * (1 + ((acceptedStory (oneRound (js "quality")) loopingContext).definition.decisions.map
        fun decision => decision.maxRounds.getD 0).sum) = 1 * (1 + 1) := by decide +kernel
  exact ⟨past, workflow, hrun, hrounds ▸ hcompletions⟩

/-- A loop named `constructor` goes back twice for its one round. -/
theorem run_rounds_inherited : ∃ past workflow,
    normalizeDecisions asciiTables (oneRound (js "constructor")) loopingContext
        = .ok (acceptedStory (oneRound (js "constructor")) loopingContext).definition.decisions ∧
      Run (step asciiTables) (acceptedStory (oneRound (js "constructor")) loopingContext) past
        workflow ∧
      (∀ entry ∈ past, entry.2.automatic = true) ∧
      ∃ decision ∈
          (acceptedStory (oneRound (js "constructor")) loopingContext).definition.decisions,
        decision.maxRounds.getD 0 < loopBacks asciiTables past decision.id := by
  obtain ⟨⟨past, workflow⟩, hrun, hcheck⟩ := exists_ok_of_any
    (x := runFrom (step asciiTables)
      ([], acceptedStory (oneRound (js "constructor")) loopingContext)
      [submitVerdict (js "good") (js "no"), approveAsLead, submitVerdict (js "good") (js "no"),
        approveAsLead])
    (p := fun run => (run.1.all fun entry => entry.2.automatic) &&
      (acceptedStory (oneRound (js "constructor")) loopingContext).definition.decisions.any
        fun decision => decision.maxRounds.getD 0 < loopBacks asciiTables run.1 decision.id)
    (by decide +kernel)
  obtain ⟨hauto, hloops⟩ := Bool.and_eq_true_iff.mp hcheck
  obtain ⟨decision, hmem, hlt⟩ := List.any_eq_true.mp hloops
  exact ⟨past, workflow, ok_of_isSome [] (by decide +kernel), Run.of_runFrom .start hrun,
    List.all_eq_true.mp hauto, decision, hmem, of_decide_eq_true hlt⟩

end Example

end Story

end SingularityFlow
