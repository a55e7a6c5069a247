/-
# Where a Story stands, and how it moves

A Story that is under way stands at one phase: those before it are settled,
those after it have not started (`Placed`).  Every operation either stays,
or moves to a later phase or past the last one, or asks a person, or goes
back (`Move`).  The operations are inverted once, in `Moves`; what holds of
all runs is then proved of these moves.
-/
import SingularityFlow.Story.Accepted
import SingularityFlow.Story.Lifecycle
import SingularityFlow.Lib.Cursor

namespace SingularityFlow

open Ecma Approval

namespace Story

/-! ## Where a route leads -/

/-- Where a route from the phase at a position leads. -/
inductive Leads (before : List Text) (current : Text) (after : List Text) : Reach → Prop
  | next {target : Text} {rest : List Text} :
      after = target :: rest → Leads before current after ⟨.next, some target, []⟩
  | finish : Leads before current after ⟨.end, none, after⟩
  | forward {skipped : List Text} {target : Text} {rest : List Text} :
      after = skipped ++ target :: rest →
      Leads before current after ⟨.forward, some target, skipped⟩
  | backward {target : Text} :
      target ∈ before ++ [current] → Leads before current after ⟨.backward, some target, []⟩
  | unknown {target : Text} : Leads before current after ⟨.unknown, some target, []⟩

theorem positionAfter_split {before after : List Text} {current : Text}
    (h : (before ++ current :: after).Nodup) :
    positionAfter (before ++ current :: after) current = before.length + 1 := by
  have hidx : ((before ++ current :: after).map id).idxOf (id current) = before.length :=
    idxOf_split (by rwa [List.map_id])
  rw [List.map_id] at hidx
  rw [positionAfter, if_pos (by simp)]
  exact congrArg (· + 1) hidx

theorem routeReach_leads {before after : List Text} {current : Text}
    (h : (before ++ current :: after).Nodup) (leadsTo : Text) :
    Leads before current after (routeReach (before ++ current :: after) current leadsTo) := by
  have hsplit : before ++ current :: after = (before ++ [current]) ++ after := by simp
  have hlength : (before ++ [current]).length = before.length + 1 := by simp
  unfold routeReach
  rw [positionAfter_split h]
  dsimp only
  split
  · rw [hsplit, List.getElem?_append_right (by simp), hlength, Nat.sub_self]
    cases after with
    | nil => exact .finish
    | cons target rest => exact .next rfl
  split
  · rw [hsplit, ← hlength, List.drop_left]
    exact .finish
  split
  · exact .unknown
  next hmem =>
  rw [not_not] at hmem
  by_cases hback : leadsTo ∈ before ++ [current]
  · have hlt : (before ++ current :: after).idxOf leadsTo < before.length + 1 := by
      rw [hsplit, List.idxOf_append_of_mem hback, ← hlength]
      exact List.idxOf_lt_length_iff.mpr hback
    rw [if_pos hlt]
    exact .backward hback
  · have hafter : leadsTo ∈ after := by
      rw [hsplit, List.mem_append] at hmem
      exact hmem.resolve_left hback
    obtain ⟨skipped, rest, rfl⟩ := List.append_of_mem hafter
    have hidx : (before ++ current :: (skipped ++ leadsTo :: rest)).idxOf leadsTo
        = before.length + 1 + skipped.length := by
      have hsplit' : before ++ current :: (skipped ++ leadsTo :: rest)
          = (before ++ current :: skipped) ++ leadsTo :: rest := by simp
      have hidx : (((before ++ current :: skipped) ++ leadsTo :: rest).map id).idxOf (id leadsTo)
          = (before ++ current :: skipped).length :=
        idxOf_split (by rwa [List.map_id, ← hsplit'])
      rw [List.map_id, ← hsplit'] at hidx
      refine hidx.trans ?_
      rw [List.length_append, List.length_cons]
      omega
    rw [hidx, if_neg (by omega)]
    have htake : ((before ++ current :: (skipped ++ leadsTo :: rest)).take
        (before.length + 1 + skipped.length)).drop (before.length + 1) = skipped := by
      rw [hsplit, List.take_append, List.take_of_length_le (by simp), hlength,
        Nat.add_sub_cancel_left, List.take_left, ← hlength, List.drop_left]
    rw [htake]
    split
    · next heq =>
      obtain rfl : skipped = [] := List.eq_nil_of_length_eq_zero (by omega)
      exact .next rfl
    · exact .forward rfl

/-! ## Places -/

/-- What a Story never changes of a phase. -/
def Phase.pinned (phase : Phase) : PhaseConfig × ApprovalPolicy :=
  (phase.config, phase.approvalPolicy)

/-- The decisions were accepted for the phases. -/
def Definition.Accepted (definition : Definition) : Prop :=
  ∀ decision ∈ definition.decisions, Sound definition.phases decision

/-- The phases of a Story are those it was started with. -/
structure WellFormed (workflow : Workflow) : Prop where
  pinned : workflow.phases.map (·.pinned)
    = workflow.definition.phases.map fun config => (phaseState false config).pinned
  nodup : (workflow.definition.phases.map (·.id)).Nodup

def Settled (phase : Phase) : Prop := phase.status = .approved ∨ phase.status = .skipped

def Active (phase : Phase) : Prop := phase.status = .inProgress ∨ phase.status = .awaitingApproval

/-- A Story under way stands at `current`. -/
structure Placed (workflow : Workflow) (before : List Phase) (current : Phase)
    (after : List Phase) : Prop where
  phases : workflow.phases = before ++ current :: after
  status : workflow.status = .inProgress
  currentPhase : workflow.currentPhase = some current.id
  before : ∀ phase ∈ before, Settled phase
  after : ∀ phase ∈ after, phase.status = .notStarted

/-- The question is the one that the decision after the phase asks. -/
def Asked (workflow : Workflow) (current : Phase) (pending : PendingDecision) : Prop :=
  pending.after = current.id ∧ ∃ decision, decisionAfter workflow current.id = some decision ∧
    ∀ option ∈ pending.options, ∃ route ∈ decision.routes, option.leadsTo = route.leadsTo

/-- A Story that stands somewhere works on the phase, or waits for a person
to say what follows it. -/
inductive Standing (workflow : Workflow) (before : List Phase) (current : Phase)
    (after : List Phase) : Prop
  | working : Placed workflow before current after → Active current →
      workflow.pendingDecision = none → Standing workflow before current after
  | waiting {pending : PendingDecision} : Placed workflow before current after →
      current.status = .approved → workflow.pendingDecision = some pending →
      Asked workflow current pending → Standing workflow before current after

theorem Standing.placed {workflow : Workflow} {before after : List Phase} {current : Phase}
    (h : Standing workflow before current after) : Placed workflow before current after := by
  cases h with
  | working hplaced => exact hplaced
  | waiting hplaced => exact hplaced

/-- The phase recorded the values that the decision after it reads. -/
def Recorded (workflow : Workflow) (phase : Phase) : Prop :=
  ∀ decision, decisionAfter workflow phase.id = some decision → decision.kind ≠ .ask →
    decision.inputs ≠ [] → (recordedDecisionValues phase decision).isSome = true

/-! ## Moves -/

/-- What an operation comes to: the current phase completed or did not, and
the Story goes back to a phase or does not. -/
inductive Event where
  | stayed
  | completed
  | looped (decision target : Text)
  | chosen
  | returned (target : Text)
deriving DecidableEq

def Event.completes : Event → Bool
  | .completed | .looped .. => true
  | _ => false

/-- The phase that the Story goes back to. -/
def Event.target : Event → Option Text
  | .looped _ target | .returned target => some target
  | _ => none

/-- What a move leaves alone. -/
structure Kept (workflow workflow' : Workflow) : Prop where
  definition : workflow'.definition = workflow.definition
  rounds : workflow'.decisionRounds = workflow.decisionRounds

/-- Phases `old` that are passed become `new`: settled, and skipped only when
none of the phases ahead requires them. -/
structure Passed (definition : Definition) (old new ahead : List Phase) : Prop where
  pinned : new.map (·.pinned) = old.map (·.pinned)
  settled : ∀ phase ∈ new, Settled phase
  stranded : definition.Accepted → ∀ phase ∈ new, phase.status = .skipped →
    ∀ reader ∈ ahead, phase.id ∉ reader.config.required

/-- The Story went back to a phase; it and all after it start again. -/
structure Reopened (workflow workflow' : Workflow) (before : List Phase) (current : Phase)
    (after earlier : List Phase) (target : Phase) (rest : List Phase) : Prop where
  placed : Placed workflow' earlier target rest
  split : ∃ old mid, before ++ [current] = earlier ++ old :: mid ∧ target.pinned = old.pinned ∧
    rest.map (·.pinned) = (mid ++ after).map (·.pinned)
  status : target.status = .inProgress
  pendingDecision : workflow'.pendingDecision = none
  definition : workflow'.definition = workflow.definition

/-- The moves of a Story that stands at `current`. -/
inductive Move (workflow : Workflow) (before : List Phase) (current : Phase)
    (after : List Phase) : Event → Workflow → Prop
  | stay {workflow' : Workflow} {current' : Phase} :
      Placed workflow' before current' after → current'.pinned = current.pinned →
      Active current' → (Recorded workflow current ∨ current.status = .inProgress →
        Recorded workflow current') → workflow'.pendingDecision = none → Kept workflow workflow' →
      Move workflow before current after .stayed workflow'
  | advance {event : Event} {workflow' : Workflow} {current' next next' : Phase}
      {old passed rest : List Phase} :
      event = .completed ∨ event = .chosen → after = old ++ next :: rest →
      Placed workflow' (before ++ current' :: passed) next' rest →
      current'.pinned = current.pinned → current'.status = .approved →
      next'.pinned = next.pinned → next'.status = .inProgress →
      Passed workflow.definition old passed (next' :: rest) → workflow'.pendingDecision = none →
      Kept workflow workflow' → Move workflow before current after event workflow'
  | finish {event : Event} {workflow' : Workflow} {current' : Phase} {passed : List Phase} :
      event = .completed ∨ event = .chosen → workflow'.phases = before ++ current' :: passed →
      current'.pinned = current.pinned → current'.status = .approved →
      Passed workflow.definition after passed [] → workflow'.status = .closed →
      workflow'.currentPhase = none → workflow'.pendingDecision = none → Kept workflow workflow' →
      Move workflow before current after event workflow'
  | pause {workflow' : Workflow} {current' : Phase} {pending : PendingDecision} :
      Placed workflow' before current' after → current'.pinned = current.pinned →
      current'.status = .approved → workflow'.pendingDecision = some pending →
      Asked workflow' current' pending → Kept workflow workflow' →
      Move workflow before current after .completed workflow'
  | loop {workflow' : Workflow} {decision : Decision} {route : Route} {target : Phase}
      {earlier rest : List Phase} :
      Reopened workflow workflow' before current after earlier target rest →
      decisionAfter workflow current.id = some decision → decision.kind ≠ .ask →
      route ∈ decision.routes →
      (routeReach workflow.phaseOrder current.id route.leadsTo).kind = .backward →
      (usedRounds workflow decision.id).exhausted decision.maxRounds = false →
      workflow'.decisionRounds = (countRound workflow decision.id).decisionRounds →
      Move workflow before current after (.looped decision.id target.id) workflow'
  | back {workflow' : Workflow} {target : Phase} {earlier rest : List Phase} :
      Reopened workflow workflow' before current after earlier target rest →
      Move workflow before current after (.returned target.id) workflow'

/-! ## Facts about places -/

section Places

variable {workflow workflow' : Workflow} {before after : List Phase} {current : Phase}

theorem configs_of_pinned {l l' : List Phase} (h : l.map (·.pinned) = l'.map (·.pinned)) :
    l.map (·.config) = l'.map (·.config) := by
  have := congrArg (List.map Prod.fst) h
  rwa [List.map_map, List.map_map] at this

theorem ids_of_pinned {l l' : List Phase} (h : l.map (·.pinned) = l'.map (·.pinned)) :
    l.map (·.id) = l'.map (·.id) := by
  have := congrArg (List.map (·.id)) (configs_of_pinned h)
  rwa [List.map_map, List.map_map] at this

theorem id_of_pinned {phase phase' : Phase} (h : phase.pinned = phase'.pinned) :
    phase.id = phase'.id :=
  congrArg (·.1.id) h

theorem WellFormed.configs (h : WellFormed workflow) :
    workflow.phases.map (·.config) = workflow.definition.phases := by
  have := congrArg (List.map Prod.fst) h.pinned
  rw [List.map_map, List.map_map] at this
  exact this.trans (List.map_id _)

theorem WellFormed.phaseOrder (h : WellFormed workflow) :
    workflow.phaseOrder = workflow.definition.phases.map (·.id) := by
  rw [← h.configs, List.map_map]
  rfl

theorem WellFormed.nodup_ids (h : WellFormed workflow) : (workflow.phases.map (·.id)).Nodup := by
  have := h.nodup
  rwa [← h.phaseOrder] at this

/-- Phases that differ in nothing pinned make a well-formed Story again. -/
theorem WellFormed.of_pinned (h : WellFormed workflow)
    (hpinned : workflow'.phases.map (·.pinned) = workflow.phases.map (·.pinned))
    (hdefinition : workflow'.definition = workflow.definition) : WellFormed workflow' :=
  ⟨by rw [hpinned, hdefinition, h.pinned], hdefinition ▸ h.nodup⟩

/-- **A move keeps the phases** and the definition of a Story. -/
theorem Move.wellFormed {event : Event} (hwf : WellFormed workflow)
    (hphases : workflow.phases = before ++ current :: after)
    (h : Move workflow before current after event workflow') :
    WellFormed workflow' ∧ workflow'.definition = workflow.definition := by
  have key : ∀ {phases : List Phase}, workflow'.phases = phases →
      phases.map (·.pinned)
        = before.map (·.pinned) ++ current.pinned :: after.map (·.pinned) →
      workflow'.definition = workflow.definition →
      WellFormed workflow' ∧ workflow'.definition = workflow.definition := by
    intro phases hphases' heq hdefinition
    refine ⟨hwf.of_pinned ?_ hdefinition, hdefinition⟩
    rw [hphases', heq, hphases, List.map_append, List.map_cons]
  have reopened : ∀ {earlier rest : List Phase} {target : Phase},
      Reopened workflow workflow' before current after earlier target rest →
      WellFormed workflow' ∧ workflow'.definition = workflow.definition := by
    intro earlier rest target hreopened
    obtain ⟨old, mid, hsplit, htarget, hrest⟩ := hreopened.split
    refine key hreopened.placed.phases ?_ hreopened.definition
    have hsplit := congrArg (List.map (·.pinned)) hsplit
    simp only [List.map_append, List.map_cons, List.map_nil] at hsplit hrest ⊢
    rw [htarget, hrest, ← List.cons_append, ← List.append_assoc, ← hsplit]
    simp
  cases h with
  | stay hplaced hpinned _ _ _ hkept =>
      exact key hplaced.phases (by simp [hpinned]) hkept.definition
  | advance _ hafter hplaced hpinned _ hnext _ hpassed _ hkept =>
      exact key hplaced.phases (by simp [hafter, hpinned, hnext, hpassed.pinned]) hkept.definition
  | finish _ hphases' hpinned _ hpassed _ _ _ hkept =>
      exact key hphases' (by simp [hpinned, hpassed.pinned]) hkept.definition
  | pause hplaced hpinned _ _ _ hkept =>
      exact key hplaced.phases (by simp [hpinned]) hkept.definition
  | loop hreopened => exact reopened hreopened
  | back hreopened => exact reopened hreopened

end Places

end Story

end SingularityFlow
