/-
# What a phase requires was done

A decision may skip phases only when no phase that its route still reaches
requires them.  Each route is checked alone, and work that goes back reaches
phases that the skipping route did not: a phase between the skipped ones may
start again without the phase it reads.  Where no step goes back so, no phase
ever starts without what it requires.
-/
import SingularityFlow.Story.Shape

namespace SingularityFlow

open Ecma Approval

namespace Story

variable {tables : UnicodeTables} {start workflow workflow' : Workflow}
  {before after : List Phase} {current : Phase}

/-- No phase is in progress while one that it requires is skipped. -/
def DependenciesMet (workflow : Workflow) : Prop :=
  ∀ phase ∈ workflow.phases, phase.status = .inProgress →
    ∀ source ∈ workflow.phases, source.id ∈ phase.config.required → source.status ≠ .skipped

/-- Going back to the target leaves a phase, from the target on, without a
skipped phase before the target that it requires. -/
def Stranded (workflow : Workflow) (target : Text) : Prop :=
  ∃ reader ∈ workflow.phases.drop (workflow.phaseOrder.idxOf target),
    ∃ source ∈ workflow.phases.take (workflow.phaseOrder.idxOf target),
      source.id ∈ reader.config.required ∧ source.status = .skipped

/-- An operation that goes back strands no phase. -/
def ReturnsSafely (tables : UnicodeTables) (workflow : Workflow) (action : Action) : Prop :=
  ∀ target, (action.event tables workflow).target = some target → ¬ Stranded workflow target

/-- No phase ahead requires a phase before that is skipped. -/
def Reads (before ahead : List Phase) : Prop :=
  ∀ reader ∈ ahead, ∀ source ∈ before, source.id ∈ reader.config.required →
    source.status ≠ .skipped

theorem Reads.of_pinned {ahead ahead' : List Phase} (h : Reads before ahead)
    (hpinned : ahead'.map (·.pinned) = ahead.map (·.pinned)) : Reads before ahead' := by
  intro reader hreader
  have hmem : reader.config ∈ ahead.map (·.config) := by
    rw [← configs_of_pinned hpinned]
    exact List.mem_map_of_mem hreader
  obtain ⟨reader', hreader', hconfig⟩ := List.mem_map.mp hmem
  rw [← hconfig]
  exact h reader' hreader'

theorem Reads.append {front mid ahead : List Phase} (hfront : Reads front ahead)
    (hmid : Reads mid ahead) : Reads (front ++ mid) ahead := by
  intro reader hreader source hsource
  rcases List.mem_append.mp hsource with hsource | hsource
  · exact hfront reader hreader source hsource
  · exact hmid reader hreader source hsource

theorem Reads.subset {ahead ahead' : List Phase} (h : Reads before ahead)
    (hsubset : ahead' ⊆ ahead) : Reads before ahead' := fun reader hreader =>
  h reader (hsubset hreader)

/-- Going back keeps the law when it strands no phase. -/
theorem Reopened.reads {earlier rest : List Phase} {target : Phase} (hwf : WellFormed workflow)
    (hplaced : Placed workflow before current after)
    (h : Reopened workflow workflow' before current after earlier target rest)
    (hguard : ¬ Stranded workflow target.id) : Reads earlier (target :: rest) := by
  obtain ⟨old, mid, hsplit, htarget, hrest⟩ := h.split
  have hphases : workflow.phases = earlier ++ old :: (mid ++ after) := by
    rw [hplaced.phases, show before ++ current :: after = (before ++ [current]) ++ after by simp,
      hsplit]
    simp
  have hidx : workflow.phaseOrder.idxOf target.id = earlier.length := by
    rw [id_of_pinned htarget, Workflow.phaseOrder, hphases]
    exact idxOf_split (hphases ▸ hwf.nodup_ids)
  have hreads : Reads earlier (old :: (mid ++ after)) := by
    intro reader hreader source hsource hrequired hskipped
    refine hguard ⟨reader, ?_, source, ?_, hrequired, hskipped⟩
    · rw [hidx, hphases, List.drop_left]
      exact hreader
    · rw [hidx, hphases, List.take_left]
      exact hsource
  exact hreads.of_pinned (by rw [List.map_cons, List.map_cons, htarget, hrest])

/-- **A move keeps the law**, where it goes back safely. -/
theorem Move.reads {event : Event} {before' after' : List Phase} {current' : Phase}
    (hwf : WellFormed workflow) (haccepted : workflow.definition.Accepted)
    (hplaced : Placed workflow before current after) (hreads : Reads before (current :: after))
    (hguard : ∀ target, event.target = some target → ¬ Stranded workflow target)
    (h : Move workflow before current after event workflow')
    (hplaced' : Placed workflow' before' current' after') : Reads before' (current' :: after') := by
  have hwf' := (h.wellFormed hwf hplaced.phases).1
  have at_place : ∀ {before₂ after₂ : List Phase} {current₂ : Phase},
      Placed workflow' before₂ current₂ after₂ → Reads before₂ (current₂ :: after₂) →
      Reads before' (current' :: after') := by
    intro before₂ after₂ current₂ hplaced₂ hreads₂
    obtain ⟨rfl, rfl, rfl⟩ := hplaced'.unique hwf' hplaced₂.phases hplaced₂.currentPhase
    exact hreads₂
  cases h with
  | stay hplaced₂ hpinned =>
      exact at_place hplaced₂ (hreads.of_pinned (by simp [hpinned]))
  | @advance _ _ completed next next' old passed rest _ hafter hplaced₂ _ happroved hnext _ hpassed =>
      have hahead : (next' :: rest).map (·.pinned) = (next :: rest).map (·.pinned) := by
        rw [List.map_cons, List.map_cons, hnext]
      refine at_place hplaced₂ (Reads.append ?_ ?_)
      · exact (hreads.subset (by simp [hafter])).of_pinned hahead
      · intro reader hreader source hsource hrequired hskipped
        rcases List.mem_cons.mp hsource with rfl | hsource
        · rw [happroved] at hskipped
          cases hskipped
        · exact hpassed.stranded haccepted source hsource hskipped reader hreader hrequired
  | finish _ _ _ _ _ _ hcurrent =>
      rw [hplaced'.currentPhase] at hcurrent
      cases hcurrent
  | pause hplaced₂ hpinned =>
      exact at_place hplaced₂ (hreads.of_pinned (by simp [hpinned]))
  | loop hreopened | back hreopened =>
      exact at_place hreopened.placed (hreopened.reads hwf hplaced (hguard _ rfl))

/-- What is proved of runs: where the Story stands, the law holds. -/
def PlacesRead (workflow : Workflow) : Prop :=
  ∀ before current after, Placed workflow before current after → Reads before (current :: after)

theorem step_placesRead {action : Action} (hwf : WellFormed workflow) (hshape : Shape workflow)
    (haccepted : workflow.definition.Accepted) (hreads : PlacesRead workflow)
    (hguard : ReturnsSafely tables workflow action)
    (h : step tables workflow action = .ok workflow') : PlacesRead workflow' := by
  intro before' current' after' hplaced'
  by_cases haction : action = .restart
  · subst haction
    obtain rfl := Except.ok.inj h
    exact hreads before' current' after' ⟨hplaced'.phases, hplaced'.status, hplaced'.currentPhase,
      hplaced'.before, hplaced'.after⟩
  · cases hshape with
    | standing hstanding =>
        exact (step_move hwf hstanding haction h).reads hwf haccepted hstanding.placed
          (hreads _ _ _ hstanding.placed) hguard hplaced'
    | closed _ hcurrent hpending _ => exact absurd (step_closed hcurrent hpending h) haction

theorem PlacesRead.dependenciesMet (hshape : Shape workflow) (hreads : PlacesRead workflow) :
    DependenciesMet workflow := by
  intro phase hphase hstatus source hsource hrequired hskipped
  cases hshape with
  | closed _ _ _ hsettled =>
      exact absurd (.inl hstatus) (hsettled phase hphase).not_active
  | standing hstanding =>
      have hplaced := hstanding.placed
      obtain rfl := hplaced.active hphase (.inl hstatus)
      rw [hplaced.phases] at hsource
      rcases List.mem_append.mp hsource with hsource | hsource
      · exact hreads _ _ _ hplaced phase (List.mem_cons_self ..) source hsource hrequired hskipped
      · rcases List.mem_cons.mp hsource with rfl | hsource
        · rw [hstatus] at hskipped
          cases hskipped
        · rw [hplaced.after source hsource] at hskipped
          cases hskipped

section Example

/-- A phase that nobody reviews. -/
def plainPhase (id : Text) (inputs : List PhaseInput) : PhaseConfig :=
  ⟨id, none, some ⟨.none, [], [], 0, none⟩, inputs, none, false, false⟩

/-- A phase that one of the leads signs off. -/
def signedPhase (id : Text) : PhaseConfig :=
  ⟨id, none, some ⟨.required, [js "leads"], [], 1, none⟩, [], none, false, false⟩

def verdictInput (name : Text) : InputDraft :=
  ⟨name, none, none, some [js "yes", js "no"], none, none⟩

def scopeBranch : DecisionDraft where
  id := js "scope"
  after := js "draft"
  kind := js "branch"
  label := some (js "Scope")
  inputs := some [verdictInput (js "full")]
  routes := some
    [⟨js "full", some (js "Full"), some [(js "full", .choice (js "yes"))], js "next", none⟩,
      ⟨js "short", some (js "Short"), none, js "sign", none⟩]
  goal := none
  back := none
  maxRounds := none
  byGroups := none
  anyStep := none
  enforceConditions := none

def qualityLoop (id back : Text) : DecisionDraft where
  id
  after := js "sign"
  kind := js "loop"
  label := some (js "Quality")
  inputs := some [verdictInput (js "good")]
  routes := none
  goal := some [(js "good", .choice (js "yes"))]
  back := some back
  maxRounds := none
  byGroups := none
  anyStep := none
  enforceConditions := none

/-- The branch may skip `scan` and `report`, which reads it; the loop goes
back to `report`. -/
def returningContext : DecisionContext :=
  ⟨js "report", [plainPhase (js "draft") [], plainPhase (js "scan") [],
    plainPhase (js "report") [⟨js "scan", false⟩], signedPhase (js "sign")], [js "leads"], none⟩

def returningDecisions : Option (List DecisionDraft) :=
  some [scopeBranch, qualityLoop (js "quality") (js "report")]

def acceptedStory (value : Option (List DecisionDraft)) (context : DecisionContext) : Workflow :=
  startStory ⟨context.phases, (normalizeDecisions asciiTables value context).toOption.getD [], none,
    []⟩

def atNoon : Completion := ⟨fun _ => false, js "12:00"⟩

def submitVerdict (name value : Text) : Action :=
  .submit ⟨1, some [(name, .choice value)], false, false, atNoon⟩

def approveAsLead : Action :=
  .approve ⟨.approved, ⟨some (js "lead"), none, none⟩, js "leads", 1, js "12:00", none, none⟩ atNoon

theorem ok_of_isSome {ε α : Type} {x : Except ε α} (a : α) (h : x.toOption.isSome = true) :
    x = .ok (x.toOption.getD a) := by
  cases x with
  | error e => cases h
  | ok a => rfl

theorem exists_ok_of_any {ε α : Type} {x : Except ε α} {p : α → Bool}
    (h : x.toOption.any p = true) : ∃ a, x = .ok a ∧ p a = true := by
  cases x with
  | error e => cases h
  | ok a => exact ⟨a, rfl, h⟩

theorem acceptedStory_accepted : normalizeDecisions asciiTables returningDecisions returningContext
    = .ok (acceptedStory returningDecisions returningContext).definition.decisions :=
  ok_of_isSome [] (by decide +kernel)

theorem acceptedStory_begins : Begins (acceptedStory returningDecisions returningContext) :=
  startStory_begins (by decide) (by decide)

instance (workflow : Workflow) : Decidable (DependenciesMet workflow) :=
  inferInstanceAs (Decidable (∀ phase ∈ workflow.phases, _ → ∀ source ∈ workflow.phases, _ → _))

end Example

end Story

end SingularityFlow
