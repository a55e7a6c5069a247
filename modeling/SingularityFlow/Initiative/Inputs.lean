/-
# The inputs of the current phase

Where the outputs of a profile consume only outputs of earlier phases, as its
validation asks, every phase that the current one consumes from is settled:
approved, or skipped because the lifecycle was entered after it.  The gate of
the inputs asks for an approved phase, and refuses a skipped one
(`producers_settled`), whose approval nothing in the lifecycle will bring about
but going back to it.
-/
import SingularityFlow.Initiative.Shape

namespace SingularityFlow

open Ecma

namespace Initiatives

variable {host : Host}

/-- The statuses of a current phase, also of one that was never started. -/
def current : List PhaseStatus := [.inProgress, .awaitingApproval, .notStarted]

theorem startStatus_mem_current (entry : Nat) : startStatus entry entry ∈ current := by
  unfold startStatus current
  rw [if_neg (Nat.lt_irrefl _)]
  split <;> simp

/-- In every run the phases before the current one are settled. -/
theorem placed_of_run {id : Text} {resolution : Resolution} {startPhase : Option Text}
    {start workspace : Workspace} {past : List (Workspace × Action)}
    (hstart : createInitiative host id resolution startPhase = .ok start.initiative)
    (hearlier : InputsEarlier resolution resolution.phases.length)
    (hrun : Run (step host) start past workspace) : Placed current workspace.initiative := by
  obtain ⟨entry, -, hcreated⟩ := created_of_eq_ok hstart
  have hinvariant := hrun.invariant
    (fun _ workspace => Placed current workspace.initiative
      ∧ workspace.initiative.resolution = resolution) (fun _ _ => True) (fun _ _ => trivial)
    ⟨hcreated.placed (startStatus_mem_current entry), hcreated.resolution_eq⟩
    fun {_ workspace _ _} ⟨hplaced, hresolution⟩ _ hstep => by
      refine ⟨hplaced.step (by simp [current]) (by simp [current]) ?_ hstep,
        (resolution_step hstep).trans hresolution⟩
      rw [hresolution]
      refine hearlier.mono ?_
      have hlength := congrArg List.length workspace.initiative.phaseOrder_eq
      rw [List.length_map, List.length_map, hresolution] at hlength
      exact hlength ▸ currentIndex_le workspace.initiative
  exact hinvariant.1

/-- **Where the current phase is refused for a producer's status.**  Where the
profile consumes only from earlier phases, every producer of the current phase
is approved or skipped, and the gate lets all of them pass exactly when none is
skipped. -/
theorem producers_settled {id : Text} {resolution : Resolution} {startPhase : Option Text}
    {start workspace : Workspace} {past : List (Workspace × Action)}
    (hstart : createInitiative host id resolution startPhase = .ok start.initiative)
    (hearlier : InputsEarlier resolution resolution.phases.length)
    (hrun : Run (step host) start past workspace) {phaseId : Text} {definition : PhaseDefinition}
    (hcurrent : workspace.initiative.currentPhase = some phaseId)
    (hdefinition : workspace.initiative.resolution.phase? phaseId = some definition) :
    (∀ reference ∈ definition.inputs, producerStatus workspace.initiative reference.2 = some .approved
        ∨ producerStatus workspace.initiative reference.2 = some .skipped)
      ∧ ((∀ reference ∈ definition.inputs, requireApprovedProducer workspace.initiative phaseId
            reference.1 reference.2 = .ok ())
          ↔ ∀ reference ∈ definition.inputs,
            producerStatus workspace.initiative reference.2 ≠ some .skipped) := by
  have hplaced := placed_of_run hstart hearlier hrun
  obtain ⟨entry, -, hcreated⟩ := created_of_eq_ok hstart
  have hresolution := (resolution_run hrun).trans hcreated.resolution_eq
  have hsettled : ∀ reference ∈ definition.inputs,
      producerStatus workspace.initiative reference.2 = some .approved
        ∨ producerStatus workspace.initiative reference.2 = some .skipped := by
    intro reference hmem
    obtain ⟨before, phase, after, hsplit, rfl, -, hbefore, -⟩ := hplaced.current phaseId hcurrent
    obtain ⟨before', definition', after', hdefinitions, hids, hid, -⟩ := exists_definitions hsplit
    obtain rfl : definition' = definition := by
      have hmem' : definition' ∈ workspace.initiative.resolution.phases := by simp [hdefinitions]
      have hfound := resolution_phase?_of_mem hmem'
      rw [hid, hdefinition] at hfound
      exact (Option.some.inj hfound).symm
    have hproducer := hearlier before' definition' after' (hresolution ▸ hdefinitions)
      (by rw [← hresolution, hdefinitions]; simp) reference hmem
    rw [hids] at hproducer
    obtain ⟨producer, hproducerMem, hproducerId⟩ := List.mem_map.mp hproducer
    have hstatus : producerStatus workspace.initiative reference.2 = some producer.status := by
      rw [producerStatus, ← hproducerId, phase?_of_mem (by rw [hsplit]; simp [hproducerMem])]
      rfl
    have hproducerSettled := hbefore producer hproducerMem
    simp only [Settled, List.mem_cons, List.not_mem_nil, or_false] at hproducerSettled
    rcases hproducerSettled with hs | hs <;> simp [hstatus, hs]
  refine ⟨hsettled, ?_⟩
  simp only [requireApprovedProducer_eq_ok_iff]
  constructor
  · intro hall reference hmem hskipped
    rw [hall reference hmem] at hskipped
    cases hskipped
  · intro hnone reference hmem
    exact (hsettled reference hmem).resolve_right (hnone reference hmem)

section Example

theorem inputsEarlier_twoPhases : InputsEarlier twoPhases twoPhases.phases.length := by
  intro before definition after hsplit _ input hinput
  have hall : ∀ i (h : i < twoPhases.phases.length), ∀ input ∈ twoPhases.phases[i].inputs,
      referencePhase input.2 ∈ (twoPhases.phases.take i).map PhaseDefinition.id := by decide
  have hlt : before.length < twoPhases.phases.length := by rw [hsplit]; simp
  have hget : twoPhases.phases[before.length] = definition := by simp [hsplit]
  have htake : twoPhases.phases.take before.length = before := by simp [hsplit]
  have hmem := hall before.length hlt input (by rw [hget]; exact hinput)
  rwa [htake] at hmem

/-- The phase at which this lifecycle is entered consumes from a skipped one. -/
theorem producers_settled_enteredAtDelivery :
    (∀ reference ∈ (phaseWith "delivery" "plan" [js "discovery/brief"]).inputs,
        producerStatus enteredAtDelivery reference.2 = some .approved
          ∨ producerStatus enteredAtDelivery reference.2 = some .skipped)
      ∧ ((∀ reference ∈ (phaseWith "delivery" "plan" [js "discovery/brief"]).inputs,
            requireApprovedProducer enteredAtDelivery (js "delivery") reference.1 reference.2 = .ok ())
          ↔ ∀ reference ∈ (phaseWith "delivery" "plan" [js "discovery/brief"]).inputs,
            producerStatus enteredAtDelivery reference.2 ≠ some .skipped) :=
  @producers_settled asciiHost (js "INIT-1") twoPhases (some (js "delivery")) startAtDelivery
    startAtDelivery [] createInitiative_enteredAtDelivery inputsEarlier_twoPhases .start
    (js "delivery") _ rfl rfl

/-- Its publication is refused, whatever is in the files. -/
theorem refused_enteredAtDelivery :
    createInitiative asciiHost (js "INIT-1") twoPhases (some (js "delivery")) = .ok enteredAtDelivery
      ∧ enteredAtDelivery.status ≠ .complete
      ∧ ∀ input, verifyInitiativePhaseInputs enteredAtDelivery input (js "delivery")
        = .error (producerNotApproved enteredAtDelivery (js "delivery") (js "plan")
          (js "discovery/brief")) :=
  ⟨rfl, fun h => InitiativeStatus.noConfusion h, fun _ => rfl⟩

end Example

end Initiatives

end SingularityFlow
