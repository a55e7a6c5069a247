/-
# The shape of every Story

A Story begins at its first phase.  Whatever is submitted, approved, decided
and rejected after that, it is closed, or waits for a person after an
approved phase, or has one phase that is worked on.
-/
import SingularityFlow.Story.Moves
import SingularityFlow.Lib.Run

namespace SingularityFlow

open Ecma Approval

namespace Story

variable {tables : UnicodeTables} {start workflow workflow' : Workflow}
  {before after : List Phase} {current : Phase}

/-- A Story is under way or closed. -/
inductive Shape (workflow : Workflow) : Prop
  | standing {before after : List Phase} {current : Phase} :
      Standing workflow before current after → Shape workflow
  | closed : workflow.status = .closed → workflow.currentPhase = none →
      workflow.pendingDecision = none → (∀ phase ∈ workflow.phases, Settled phase) →
      Shape workflow

/-- The Story stands at its first phase, which is worked on. -/
structure Begins (workflow : Workflow) : Prop where
  wellFormed : WellFormed workflow
  first : ∃ first rest, Placed workflow [] first rest ∧ first.status = .inProgress
  pendingDecision : workflow.pendingDecision = none

theorem startStory_begins {definition : Definition} (hphases : definition.phases ≠ [])
    (hnodup : (definition.phases.map (·.id)).Nodup) : Begins (startStory definition) := by
  obtain ⟨first, rest, hcons⟩ := List.exists_cons_of_ne_nil hphases
  have hstart : (startStory definition).phases
      = phaseState true first :: rest.map (phaseState false) := by
    simp only [startStory, hcons]
  refine ⟨⟨?_, hnodup⟩, ⟨phaseState true first, rest.map (phaseState false), ⟨hstart, rfl, ?_,
    by simp, ?_⟩, rfl⟩, rfl⟩
  · rw [hstart, show (startStory definition).definition = definition from rfl, hcons, List.map_cons,
      List.map_cons, List.map_map]
    rfl
  · simp only [startStory, hcons, List.head?_cons, Option.map_some]
    rfl
  · intro phase hphase
    obtain ⟨config, -, rfl⟩ := List.mem_map.mp hphase
    rfl

/-! ## One operation -/

theorem Move.shape {event : Event} (hplaced : Placed workflow before current after)
    (h : Move workflow before current after event workflow') : Shape workflow' := by
  cases h with
  | stay hplaced' _ hactive _ hpending _ => exact .standing (.working hplaced' hactive hpending)
  | advance _ _ hplaced' _ _ _ hstarted _ hpending _ =>
      exact .standing (.working hplaced' (.inl hstarted) hpending)
  | @finish _ _ current' passed _ hphases _ happroved hpassed hstatus hcurrent hpending _ =>
      refine .closed hstatus hcurrent hpending fun phase hphase => ?_
      rw [hphases] at hphase
      rcases List.mem_append.mp hphase with hphase | hphase
      · exact hplaced.before phase hphase
      · rcases List.mem_cons.mp hphase with rfl | hphase
        · exact .inl happroved
        · exact hpassed.settled phase hphase
  | pause hplaced' _ happroved hpending hasked _ =>
      exact .standing (.waiting hplaced' happroved hpending hasked)
  | loop hreopened | back hreopened =>
      exact .standing (.working hreopened.placed (.inl hreopened.status) hreopened.pendingDecision)

/-- Nothing but a new process happens to a Story that is closed. -/
theorem step_closed {action : Action} (hcurrent : workflow.currentPhase = none)
    (hpending : workflow.pendingDecision = none) (h : step tables workflow action = .ok workflow') :
    action = .restart := by
  have hrefused (status : PhaseStatus) (phase : Phase) : currentIn workflow status ≠ .ok phase := by
    rw [currentIn, hcurrent, Option.bind_none]
    exact nofun
  cases action with
  | submit submission =>
      obtain ⟨phase, hphase, -⟩ := bind_eq_ok_iff.mp h
      exact absurd hphase (hrefused _ _)
  | approve decision completion =>
      obtain ⟨phase, hphase, -⟩ := bind_eq_ok_iff.mp h
      exact absurd hphase (hrefused _ _)
  | decide option choice now =>
      have h : decideStory workflow option choice now = .ok workflow' := h
      rw [decideStory, hpending, Option.filter_none] at h
      cases h
  | reject target unsubmitted now =>
      obtain ⟨phase, hphase, -⟩ := bind_eq_ok_iff.mp h
      exact absurd hphase (hrefused _ _)
  | restart => rfl

/-- Loading a Story again changes nothing that it saved. -/
theorem Standing.restart (h : Standing workflow before current after) :
    Standing { workflow with inheritedCounts := [] } before current after := by
  cases h with
  | working hplaced hactive hpending =>
      exact .working ⟨hplaced.phases, hplaced.status, hplaced.currentPhase, hplaced.before,
        hplaced.after⟩ hactive hpending
  | waiting hplaced happroved hpending hasked =>
      exact .waiting ⟨hplaced.phases, hplaced.status, hplaced.currentPhase, hplaced.before,
        hplaced.after⟩ happroved hpending hasked

/-- **One operation** keeps the shape of a Story, and its phases. -/
theorem step_shape {action : Action} (hwf : WellFormed workflow) (hshape : Shape workflow)
    (h : step tables workflow action = .ok workflow') :
    WellFormed workflow' ∧ workflow'.definition = workflow.definition ∧ Shape workflow' := by
  by_cases haction : action = .restart
  · subst haction
    obtain rfl := Except.ok.inj h
    refine ⟨hwf.of_pinned rfl rfl, rfl, ?_⟩
    cases hshape with
    | standing hstanding => exact .standing hstanding.restart
    | closed hstatus hcurrent hpending hsettled => exact .closed hstatus hcurrent hpending hsettled
  · cases hshape with
    | standing hstanding =>
        have hmove := step_move hwf hstanding haction h
        obtain ⟨hwf', hdefinition⟩ := hmove.wellFormed hwf hstanding.placed.phases
        exact ⟨hwf', hdefinition, hmove.shape hstanding.placed⟩
    | closed _ hcurrent hpending _ => exact absurd (step_closed hcurrent hpending h) haction

/-! ## Runs -/

theorem Begins.shape (h : Begins workflow) : Shape workflow := by
  obtain ⟨first, rest, hplaced, hfirst⟩ := h.first
  exact .standing (.working hplaced (.inl hfirst) h.pendingDecision)

theorem run_shape {past : List (Workflow × Action)} (hstart : Begins start)
    (h : Run (step tables) start past workflow) :
    WellFormed workflow ∧ workflow.definition = start.definition ∧ Shape workflow := by
  refine Run.invariant (fun _ workflow => WellFormed workflow ∧
      workflow.definition = start.definition ∧ Shape workflow) (fun _ _ => True) h
    (fun _ _ => trivial) ⟨hstart.wellFormed, rfl, hstart.shape⟩ ?_
  rintro past workflow action workflow' ⟨hwf, hdefinition, hshape⟩ - hstep
  obtain ⟨hwf', hdefinition', hshape'⟩ := step_shape hwf hshape hstep
  exact ⟨hwf', hdefinition'.trans hdefinition, hshape'⟩

/-- An approval that was kept: by retention, or by a skill amendment. -/
def KeptApproval (workflow : Workflow) (phase : Phase) : Prop :=
  phase.status = .approved ∧ (phase.retention = some phase.generation ∨
    ∃ amendment ∈ workflow.definition.skillVersionAmendments,
      amendment.approved = true ∧ phase.id ∈ amendment.preservedPhaseIds)

/-- What can be seen of a Story at any time. -/
structure StoryShape (workflow : Workflow) : Prop where
  closed : workflow.status = .closed ↔ workflow.currentPhase = none
  pending : ∀ pending, workflow.pendingDecision = some pending →
    workflow.currentPhase = some pending.after ∧
    (∃ phase ∈ workflow.phases, phase.id = pending.after ∧ phase.status = .approved) ∧
    ∀ phase ∈ workflow.phases, ¬ Active phase
  active : workflow.pendingDecision = none → workflow.status ≠ .closed →
    ∃ phase, workflow.currentPhase = some phase.id ∧
      ∀ other, other ∈ workflow.phases ∧ Active other ↔ other = phase
  before : ∀ before current after, workflow.phases = before ++ current :: after →
    workflow.currentPhase = some current.id → ∀ phase ∈ before, Settled phase
  after : ∀ before current after, workflow.phases = before ++ current :: after →
    workflow.currentPhase = some current.id →
    ∀ phase ∈ after, phase.status = .notStarted ∨ KeptApproval workflow phase

theorem Settled.not_active {phase : Phase} (h : Settled phase) : ¬ Active phase := by
  rintro (hactive | hactive) <;> rcases h with h | h <;> rw [h] at hactive <;> cases hactive

theorem not_active_of_notStarted {phase : Phase} (h : phase.status = .notStarted) :
    ¬ Active phase := by
  rintro (hactive | hactive) <;> rw [h] at hactive <;> cases hactive

theorem Placed.active {phase : Phase} (hplaced : Placed workflow before current after)
    (hphase : phase ∈ workflow.phases) (hactive : Active phase) : phase = current := by
  rw [hplaced.phases] at hphase
  rcases List.mem_append.mp hphase with hphase | hphase
  · exact absurd hactive (hplaced.before phase hphase).not_active
  · rcases List.mem_cons.mp hphase with rfl | hphase
    · rfl
    · exact absurd hactive (not_active_of_notStarted (hplaced.after phase hphase))

/-- The phases split at the current one in one way. -/
theorem Placed.unique (hwf : WellFormed workflow) (hplaced : Placed workflow before current after)
    {before' after' : List Phase} {current' : Phase}
    (hphases : workflow.phases = before' ++ current' :: after')
    (hcurrent : workflow.currentPhase = some current'.id) :
    before' = before ∧ current' = current ∧ after' = after := by
  have hnodup := hwf.nodup_ids
  have hid : current'.id = current.id := Option.some.inj (hcurrent.symm.trans hplaced.currentPhase)
  have hlength : before'.length = before.length := by
    rw [← idxOf_split (hphases ▸ hnodup), ← hphases, hid, hplaced.phases]
    exact idxOf_split (hplaced.phases ▸ hnodup)
  obtain ⟨hbefore, hrest⟩ := List.append_inj (hphases.symm.trans hplaced.phases) hlength
  exact ⟨hbefore, List.cons.inj hrest⟩

theorem Standing.storyShape (hwf : WellFormed workflow)
    (h : Standing workflow before current after) : StoryShape workflow := by
  have hplaced := h.placed
  refine ⟨?_, ?_, ?_, ?_, ?_⟩
  · rw [hplaced.status, hplaced.currentPhase]
    exact iff_of_false nofun nofun
  · intro pending hpending
    cases h with
    | working _ _ hnone => rw [hnone] at hpending; cases hpending
    | waiting _ happroved hsome hasked =>
        obtain rfl := Option.some.inj (hsome.symm.trans hpending)
        refine ⟨hasked.1 ▸ hplaced.currentPhase, ⟨current, ?_, hasked.1.symm, happroved⟩, ?_⟩
        · rw [hplaced.phases]; simp
        · intro phase hphase hactive
          rw [hplaced.active hphase hactive] at hactive
          exact Settled.not_active (.inl happroved) hactive
  · intro hnone _
    cases h with
    | working _ hactive _ =>
        refine ⟨current, hplaced.currentPhase, fun other => ⟨fun h => hplaced.active h.1 h.2, ?_⟩⟩
        rintro rfl
        exact ⟨by rw [hplaced.phases]; simp, hactive⟩
    | waiting _ _ hsome _ => rw [hnone] at hsome; cases hsome
  · intro before' current' after' hphases hcurrent
    obtain ⟨rfl, -, -⟩ := hplaced.unique hwf hphases hcurrent
    exact hplaced.before
  · intro before' current' after' hphases hcurrent phase hphase
    obtain ⟨-, -, rfl⟩ := hplaced.unique hwf hphases hcurrent
    exact .inl (hplaced.after phase hphase)

/-- **The shape of every Story**: after any operations from its beginning. -/
theorem run_storyShape {past : List (Workflow × Action)} (hstart : Begins start)
    (h : Run (step tables) start past workflow) : StoryShape workflow := by
  obtain ⟨hwf, -, hshape⟩ := run_shape hstart h
  cases hshape with
  | standing hstanding => exact hstanding.storyShape hwf
  | closed hstatus hcurrent hpending _ =>
      refine ⟨iff_of_true hstatus hcurrent, fun pending hsome => ?_, fun _ hopen => absurd hstatus hopen,
        fun _ _ _ _ hsome => ?_, fun _ _ _ _ hsome => ?_⟩
      · rw [hpending] at hsome; cases hsome
      · rw [hcurrent] at hsome; cases hsome
      · rw [hcurrent] at hsome; cases hsome

/-- One phase, reviewed by the default authority. -/
def onePhase : Definition := ⟨[⟨js "plan", none, none, [], none, false, false⟩], [], none, []⟩

def submitOnce : Action := .submit ⟨1, none, false, false, ⟨fun _ => false, js "12:00"⟩⟩

theorem run_storyShape_submitted : ∃ workflow,
    step asciiTables (startStory onePhase) submitOnce = .ok workflow ∧ StoryShape workflow := by
  obtain ⟨workflow, hstep⟩ :
      ∃ workflow, step asciiTables (startStory onePhase) submitOnce = .ok workflow := ⟨_, rfl⟩
  have hstart : Begins (startStory onePhase) := startStory_begins (by decide) (by decide)
  exact ⟨workflow, hstep, run_storyShape hstart (.step .start hstep)⟩

end Story

end SingularityFlow
