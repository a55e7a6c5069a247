/-
# What carries a criterion

A criterion is `met` or `excepted` by its primary slots.  `Sound` says by which:
every one under `all` and one under `any`, each of them met, or stopped by nothing
but witnesses that failed or were unavailable where the risk of that was accepted.
`SupportingAside` says that the supporting slots do not count.

Neither holds of every contract.  The rule for an accepted risk looks at the
results of the primary slots together, so that a slot without results, with a
failed record or below its assurance is not seen by it (`RiskGap`); and a witness
serves the first slot that names its file, so that a supporting slot can take it
(`Shadowed`).  `sound_iff` is that nothing else goes wrong, and
`risk_carries_missing_slot` is a criterion that is carried without a witness.
-/
import SingularityFlow.Verification.Results

namespace SingularityFlow

open Ecma

namespace Verification

section Criterion

variable (instances : TestWitness → Text → Bool) (id : Text) (contract : Contract)
  (entries : List Entry) (options : Options)

/-! ## What the slots are judged by -/

/-- The results of the witnesses that count for a slot. -/
def slotWitnesses (slot : Slot) : List WitnessResult :=
  if slot.method = .test then
    (((serving contract slot entries).filter options.counts).filter
      fun entry => entry.ready = options.submitted).map
        fun entry => witnessResult instances entry.witness entry.attempt options.submitted
  else []

/-- The assurance that a test slot has to reach. -/
def slotRequirement (slot : Slot) : Assurance :=
  strongest Assurance.rank options.requiredAssurance (slot.requiredAssurance.getD .none ::
    (slotWitnesses instances contract entries options slot).map WitnessResult.requiredAssurance)

/-- The record of an inspection or visual slot. -/
def recordFor (slot : Slot) : Option Record :=
  options.records.find? fun r => r.clauseId = id && r.slot = slot.slot && r.method = slot.method

/-- A test slot is met by its witnesses, all passed and at the assurance it
requires; another one by its record. -/
def SlotMet (slot : Slot) : Prop :=
  if slot.method = .test then
    options.submitted = true ∧ slotWitnesses instances contract entries options slot ≠ []
      ∧ ∀ w ∈ slotWitnesses instances contract entries options slot, w.status = .met
        ∧ (slotRequirement instances contract entries options slot).rank ≤ w.assurance.rank
  else (recordFor id options slot).map Record.status = some .met

/-- A slot that was judged and is not met. -/
def SlotBlocked (slot : Slot) : Prop :=
  if slot.method = .test then
    options.submitted = true ∧ slotWitnesses instances contract entries options slot ≠ []
      ∧ ¬ SlotMet instances id contract entries options slot
  else (recordFor id options slot).map Record.status = some .failed

/-- A witness of the slot failed, or had no usable run. -/
def SlotFailing (slot : Slot) : Prop :=
  options.submitted = true
    ∧ ∃ w ∈ slotWitnesses instances contract entries options slot, w.failing = true

/-- **The gap of an accepted risk.**  All that was seen of the primary slots passed,
failed or was unavailable, but under `all` one of them has not failed itself, and
under `any` none of them has. -/
structure RiskGap : Prop where
  acceptedRisk : options.acceptedRisk = true
  seen : ∃ slot ∈ contract.primary, slotWitnesses instances contract entries options slot ≠ []
  judged : ∀ slot ∈ contract.primary, ∀ w ∈ slotWitnesses instances contract entries options slot,
    w.failing = true ∨ w.status = .met
  gap : match contract.combination with
    | .all =>
        (∃ slot ∈ contract.primary, SlotBlocked instances id contract entries options slot)
          ∧ ∃ slot ∈ contract.primary, ¬ SlotMet instances id contract entries options slot
            ∧ ¬ SlotFailing instances contract entries options slot
    | .any =>
        ∀ slot ∈ contract.primary, SlotBlocked instances id contract entries options slot
          ∧ ¬ SlotFailing instances contract entries options slot

/-! ## What a criterion passes by -/

/-- A slot carries its criterion: it is met by something, or only failed and
unavailable witnesses stop it and the risk of them was accepted. -/
def Carries (result : SlotResult) : Prop :=
  (result.status = .met ∧ (result.results ≠ [] ∨ result.record.isSome))
    ∨ (options.acceptedRisk = true ∧ (result.status = .failed ∨ result.status = .inconclusive)
        ∧ (∃ w ∈ result.results, w.status ≠ .met)
        ∧ ∀ w ∈ result.results, w.status ≠ .met → w.failing = true)

/-- A reviewer excepted something of the slot, and the exception has not lapsed. -/
def LiveException (slot : Slot) : Prop :=
  if slot.method = .test then
    ∃ entry ∈ serving contract slot entries, ∃ decision, options.decisionFor entry = some decision
      ∧ decision.decision = .exception ∧ decision.live options.now = true
  else ∃ record, recordFor id options slot = some record ∧ record.exception = true

/-- The primary slots that the combination asks for have a property. -/
def Contract.Combines (P : Slot → Prop) : Prop :=
  match contract.combination with
  | .all => ∀ slot ∈ contract.primary, P slot
  | .any => ∃ slot ∈ contract.primary, P slot

/-- What a criterion passes by. -/
structure Sound : Prop where
  /-- It passes only if its primary slots carry it. -/
  carried :
    (contractResult instances id contract entries options).status = .met
      ∨ (contractResult instances id contract entries options).status = .excepted →
    contract.Combines fun slot =>
      Carries options (slotResult instances id contract entries options slot)
  /-- A witness exception is one of a primary slot that is met. -/
  exception :
    (contractResult instances id contract entries options).exception = .witnessException →
    ∃ slot ∈ contract.primary, SlotMet instances id contract entries options slot
      ∧ LiveException id contract entries options slot
  /-- The slots that it is met by reach the assurance that it reports. -/
  assurance :
    (contractResult instances id contract entries options).status = .met →
    match contract.combination with
    | .all => ∀ slot ∈ contract.primary,
        (contractResult instances id contract entries options).assurance.rank
          ≤ (slotResult instances id contract entries options slot).assurance.rank
    | .any => ∃ slot ∈ contract.primary, SlotMet instances id contract entries options slot
        ∧ (slotResult instances id contract entries options slot).assurance
          = (contractResult instances id contract entries options).assurance

end Criterion

/-- What a criterion shows for itself. -/
def CriterionResult.verdict (result : CriterionResult) : Status × Exception × Assurance :=
  (result.status, result.exception, result.assurance)

/-- Neither the supporting slots nor the witnesses that serve them change what a
criterion shows. -/
structure SupportingAside (instances : TestWitness → Text → Bool) (contract : Contract) : Prop where
  slots : ∀ id entries options,
    (contractResult instances id contract entries options).verdict
      = (contractResult instances id contract.primaryOnly entries options).verdict
  witnesses : ∀ id entries options,
    (contractResult instances id contract entries options).verdict
      = (contractResult instances id contract
          (entries.filter fun entry => (testSlotFor contract entry.witness.testSource).all Slot.isPrimary)
          options).verdict

/-! ## Witnesses and slots -/

section Slots

variable {instances : TestWitness → Text → Bool} {id : Text} {contract : Contract}
  {entries : List Entry} {options : Options} {slot : Slot}

theorem slotResult_role :
    (slotResult instances id contract entries options slot).role = slot.role := by
  unfold slotResult testSlotResult
  dsimp only
  split
  · split
    · rfl
    · split <;> rfl
  · rfl

theorem slotResult_results :
    (slotResult instances id contract entries options slot).results
      = slotWitnesses instances contract entries options slot := by
  unfold slotResult slotWitnesses
  split
  · unfold testSlotResult
    dsimp only
    split
    · rfl
    · split <;> rfl
  · rfl

/-- The witnesses of a slot are results of witnesses. -/
theorem slotWitnesses_status {w : WitnessResult}
    (hw : w ∈ slotWitnesses instances contract entries options slot) :
    w.status.basic ∧ (w.failing = true → w.status = .failed ∨ w.status = .inconclusive) := by
  unfold slotWitnesses at hw
  split at hw
  · obtain ⟨entry, -, rfl⟩ := List.mem_map.mp hw
    have hstatus := witnessResult_status instances entry.witness entry.attempt options.submitted
    generalize witnessResult instances entry.witness entry.attempt options.submitted = w at hstatus
    unfold Status.basic WitnessResult.failing
    rcases hstatus with ⟨ho, hs⟩ | hs | ⟨ho, hs⟩
    · rcases hs with hs | hs <;> simp [ho, hs]
    · cases ho : w.outcome <;> simp [hs, ho, outcomeStatus]
    · simp [hs]
  · cases hw

/-- The aggregate of some witnesses, which are not none. -/
theorem aggregateWitnesses_met_iff {results : List WitnessResult} (hne : results ≠ [])
    (hbasic : ∀ w ∈ results, w.status.basic) :
    (aggregateWitnesses results).status = .met ↔ ∀ w ∈ results, w.status = .met := by
  cases results with
  | nil => exact absurd rfl hne
  | cons first rest =>
      unfold aggregateWitnesses
      dsimp only
      rw [strongestBlocker_eq_met_iff]
      · exact List.forall_mem_map
      · exact List.forall_mem_map.mpr hbasic

theorem le_aggregateWitnesses_iff {results : List WitnessResult} (hne : results ≠ []) {n : Nat} :
    n ≤ (aggregateWitnesses results).assurance.rank ↔ ∀ w ∈ results, n ≤ w.assurance.rank := by
  cases results with
  | nil => exact absurd rfl hne
  | cons first rest =>
      unfold aggregateWitnesses
      dsimp only
      rw [le_rank_weakest_iff, ← List.map_cons, List.forall_mem_map]

theorem aggregateWitnesses_mem {results : List WitnessResult} (hne : results ≠ [])
    (hmet : (aggregateWitnesses results).status ≠ .met) :
    (aggregateWitnesses results).status ∈ results.map WitnessResult.status := by
  cases results with
  | nil => exact absurd rfl hne
  | cons first rest => exact strongestBlocker_mem hmet

/-- How a test slot stands, by its witnesses. -/
theorem slotResult_test (htest : slot.method = .test) :
    let witnesses := slotWitnesses instances contract entries options slot
    let requirement := slotRequirement instances contract entries options slot
    (slotResult instances id contract entries options slot).status =
      if witnesses = [] then (if options.rowSubmitted then .missing else .pending)
      else if options.submitted = false then .pending
      else if (aggregateWitnesses witnesses).status = .met
          ∧ (aggregateWitnesses witnesses).assurance.rank < requirement.rank then .inconclusive
      else (aggregateWitnesses witnesses).status := by
  intro witnesses requirement
  unfold slotResult testSlotResult
  rw [if_pos htest]
  have hwitnesses : witnesses = (((serving contract slot entries).filter options.counts).filter
      fun entry => entry.ready = options.submitted).map
        fun entry => witnessResult instances entry.witness entry.attempt options.submitted :=
    if_pos htest
  dsimp only
  rw [← hwitnesses]
  by_cases hnil : witnesses = []
  · rw [if_pos hnil, if_pos hnil]
  · rw [if_neg hnil, if_neg hnil]
    cases hsubmitted : options.submitted with
    | false => rfl
    | true => simp [witnesses, requirement, slotRequirement]

/-- How an inspection or visual slot stands, by its record. -/
theorem slotResult_record (htest : slot.method ≠ .test) :
    (slotResult instances id contract entries options slot).status =
      match (recordFor id options slot).map Record.status with
      | some .met => .met
      | some .missing => .missing
      | some .failed => .failed
      | none => if options.rowSubmitted then .missing else .pending := by
  have hrecord : slotResult instances id contract entries options slot = recordSlotResult id slot options :=
    if_neg htest
  rw [hrecord]
  rfl

theorem slotResult_basic :
    (slotResult instances id contract entries options slot).status.basic := by
  unfold Status.basic
  by_cases htest : slot.method = .test
  · rw [slotResult_test htest]
    split
    · split <;> exact nofun
    · next hne =>
        split
        · exact nofun
        · split
          · exact nofun
          · next hshort =>
              intro hexcepted
              have hmem := aggregateWitnesses_mem hne (by rw [hexcepted]; exact nofun)
              obtain ⟨w, hw, hstatus⟩ := List.mem_map.mp hmem
              exact (slotWitnesses_status hw).1 (hstatus.trans hexcepted)
  · rw [slotResult_record htest]
    split
    · exact nofun
    · exact nofun
    · exact nofun
    · split <;> exact nofun

/-- **When a slot is met.** -/
theorem slotResult_met_iff :
    (slotResult instances id contract entries options slot).status = .met
      ↔ SlotMet instances id contract entries options slot := by
  unfold SlotMet
  by_cases htest : slot.method = .test
  · rw [slotResult_test htest, if_pos htest]
    by_cases hnil : slotWitnesses instances contract entries options slot = []
    · rw [if_pos hnil]
      constructor
      · intro h
        split at h <;> cases h
      · exact fun h => absurd hnil h.2.1
    · rw [if_neg hnil]
      have hbasic : ∀ w ∈ slotWitnesses instances contract entries options slot, w.status.basic :=
        fun w hw => (slotWitnesses_status hw).1
      cases hsubmitted : options.submitted with
      | false => simp
      | true =>
          rw [if_neg (by simp)]
          constructor
          · intro h
            split at h
            · cases h
            · next hshort =>
                have hreach := Nat.le_of_not_lt fun hlt => hshort ⟨h, hlt⟩
                rw [le_aggregateWitnesses_iff hnil] at hreach
                rw [aggregateWitnesses_met_iff hnil hbasic] at h
                exact ⟨rfl, hnil, fun w hw => ⟨h w hw, hreach w hw⟩⟩
          · rintro ⟨-, -, hall⟩
            have hmet := (aggregateWitnesses_met_iff hnil hbasic).mpr fun w hw => (hall w hw).1
            have hreach := (le_aggregateWitnesses_iff hnil).mpr fun w hw => (hall w hw).2
            rw [if_neg fun h => Nat.not_le.mpr h.2 hreach, hmet]
  · rw [slotResult_record htest, if_neg htest]
    split
    · next h => simp [h]
    · next h => simp [h]
    · next h => simp [h]
    · next h =>
        rw [h]
        split <;> simp

/-- Where all that was seen passed or failed, a slot is stopped when it was judged
and is not met. -/
theorem slotResult_blocked_iff
    (hjudged : ∀ w ∈ slotWitnesses instances contract entries options slot,
      w.failing = true ∨ w.status = .met) :
    (slotResult instances id contract entries options slot).status = .failed
        ∨ (slotResult instances id contract entries options slot).status = .inconclusive
      ↔ SlotBlocked instances id contract entries options slot := by
  have hmet : (slotResult instances id contract entries options slot).status = .met
      ↔ SlotMet instances id contract entries options slot := slotResult_met_iff
  unfold SlotBlocked
  by_cases htest : slot.method = .test
  · rw [if_pos htest, ← hmet, slotResult_test htest]
    by_cases hnil : slotWitnesses instances contract entries options slot = []
    · rw [if_pos hnil]
      constructor
      · intro h
        split at h <;> rcases h with h | h <;> cases h
      · exact fun h => absurd hnil h.2.1
    · rw [if_neg hnil]
      cases hsubmitted : options.submitted with
      | false => simp
      | true =>
          rw [if_neg (by simp)]
          split
          · exact ⟨fun _ => ⟨rfl, hnil, nofun⟩, fun _ => .inr rfl⟩
          · refine ⟨fun h => ⟨rfl, hnil, fun heq => ?_⟩, fun h => ?_⟩
            · rw [heq] at h
              rcases h with h | h <;> cases h
            · obtain ⟨w, hw, hstatus⟩ := List.mem_map.mp (aggregateWitnesses_mem hnil h.2.2)
              rw [← hstatus]
              rcases hjudged w hw with hfailing | hw'
              · exact (slotWitnesses_status hw).2 hfailing
              · exact absurd (hstatus.symm.trans hw') h.2.2
  · rw [if_neg htest, slotResult_record htest]
    split
    · next h => simp [h]
    · next h => simp [h]
    · next h => simp [h]
    · next h =>
        rw [h]
        split <;> simp

end Slots

/-! ## Combining the primary slots -/

section Combining

variable {statuses : List Status}

theorem combined_all_met_iff (hbasic : ∀ s ∈ statuses, s.basic) :
    combined .all statuses = .met ↔ ∀ s ∈ statuses, s = .met :=
  strongestBlocker_eq_met_iff hbasic

theorem combined_any_met_iff : combined .any statuses = .met ↔ .met ∈ statuses := by
  unfold combined
  dsimp only
  split
  · next h => exact ⟨fun _ => h, fun _ => rfl⟩
  · next h =>
      refine ⟨fun heq => ?_, fun hmem => absurd hmem h⟩
      cases hfind : [Status.pending, .missing, .inconclusive, .failed].find? (fun s => s ∈ statuses) with
      | none =>
          rw [hfind] at heq
          cases heq
      | some s =>
          rw [hfind] at heq
          obtain rfl : s = .met := heq
          exact absurd (List.mem_of_find?_eq_some hfind) (by simp)

/-- Under `all`, the combination is stopped by one slot that is. -/
theorem combined_all_blocked_iff :
    (combined .all statuses = .failed ∨ combined .all statuses = .inconclusive)
      ↔ ∃ s ∈ statuses, s = .failed ∨ s = .inconclusive := by
  constructor
  · intro h
    have hne : strongestBlocker statuses ≠ .met := by
      intro hmet
      rw [combined, hmet] at h
      rcases h with h | h <;> cases h
    exact ⟨_, strongestBlocker_mem hne, h⟩
  · rintro ⟨s, hs, rfl | rfl⟩
    · exact .inl (by simp [combined, strongestBlocker, hs])
    · by_cases hfailed : Status.failed ∈ statuses
      · exact .inl (by simp [combined, strongestBlocker, hfailed])
      · exact .inr (by simp [combined, strongestBlocker, hfailed, hs])

/-- Under `any`, it is stopped only where every slot is. -/
theorem combined_any_blocked_iff (hbasic : ∀ s ∈ statuses, s.basic) (hne : statuses ≠ []) :
    (combined .any statuses = .failed ∨ combined .any statuses = .inconclusive)
      ↔ ∀ s ∈ statuses, s = .failed ∨ s = .inconclusive := by
  by_cases hmet : Status.met ∈ statuses
  · refine ⟨fun h => ?_, fun h => ?_⟩
    · rw [combined_any_met_iff.mpr hmet] at h
      rcases h with h | h <;> cases h
    · rcases h _ hmet with h | h <;> cases h
  · by_cases hpending : Status.pending ∈ statuses
    · refine ⟨fun h => ?_, fun h => ?_⟩
      · simp [combined, hmet, hpending] at h
      · rcases h _ hpending with h | h <;> cases h
    · by_cases hmissing : Status.missing ∈ statuses
      · refine ⟨fun h => ?_, fun h => ?_⟩
        · simp [combined, hmet, hpending, hmissing] at h
        · rcases h _ hmissing with h | h <;> cases h
      · have hall : ∀ s ∈ statuses, s = .failed ∨ s = .inconclusive := by
          intro s hs
          cases s with
          | failed => exact .inl rfl
          | inconclusive => exact .inr rfl
          | excepted => exact absurd rfl (hbasic _ hs)
          | missing => exact absurd hs hmissing
          | pending => exact absurd hs hpending
          | met => exact absurd hs hmet
        refine ⟨fun _ => hall, fun _ => ?_⟩
        by_cases hinconclusive : Status.inconclusive ∈ statuses
        · exact .inr (by simp [combined, hmet, hpending, hmissing, hinconclusive])
        · obtain ⟨s, hs⟩ := List.exists_mem_of_ne_nil statuses hne
          obtain rfl : s = .failed := (hall s hs).resolve_right fun h => hinconclusive (h ▸ hs)
          exact .inl (by simp [combined, hmet, hpending, hmissing, hinconclusive, hs])

end Combining

/-! ## The criterion -/

section Result

variable (instances : TestWitness → Text → Bool) (id : Text) (contract : Contract)
  (entries : List Entry) (options : Options)

/-- How the primary slots stand together, before an exception. -/
def observedStatus : Status :=
  combined contract.combination
    (contract.primary.map fun slot => (slotResult instances id contract entries options slot).status)

/-- An accepted risk carries the criterion. -/
def RiskApplies : Prop :=
  options.acceptedRisk = true
    ∧ (observedStatus instances id contract entries options = .failed
      ∨ observedStatus instances id contract entries options = .inconclusive)
    ∧ (∃ slot ∈ contract.primary, slotWitnesses instances contract entries options slot ≠ [])
    ∧ ∀ slot ∈ contract.primary, ∀ w ∈ slotWitnesses instances contract entries options slot,
      w.failing = true ∨ w.status = .met

variable {instances id contract entries options} {slot : Slot}

theorem primary_slotResults :
    (contract.slots.map (slotResult instances id contract entries options)).filter
        (fun r => r.role = .primary)
      = contract.primary.map (slotResult instances id contract entries options) := by
  unfold Contract.primary
  rw [List.filter_map]
  congr 1
  refine List.filter_congr fun slot _ => ?_
  rw [Function.comp_apply, slotResult_role]
  rfl

theorem observedStatus_eq :
    observedStatus instances id contract entries options
      = combined contract.combination
        ((contract.primary.map (slotResult instances id contract entries options)).map
          SlotResult.status) := by
  rw [List.map_map]
  rfl

theorem primary_basic :
    ∀ s ∈ contract.primary.map
      (fun slot => (slotResult instances id contract entries options slot).status), s.basic :=
  List.forall_mem_map.mpr fun _ _ => slotResult_basic

/-- The primary slots combine to `met` as the combination says. -/
theorem observedStatus_met_iff :
    observedStatus instances id contract entries options = .met
      ↔ contract.Combines fun slot => SlotMet instances id contract entries options slot := by
  unfold observedStatus Contract.Combines
  cases contract.combination with
  | all =>
      rw [combined_all_met_iff primary_basic, List.forall_mem_map]
      exact forall₂_congr fun _ _ => slotResult_met_iff
  | any =>
      rw [combined_any_met_iff, List.mem_map]
      exact exists_congr fun _ => and_congr_right fun _ => slotResult_met_iff

/-! ## The verdict, by the primary slots alone -/

/-- The primary slots that count: those that are met, where one is enough. -/
def countedOf (combination : Combination) (primary : List SlotResult) : List SlotResult :=
  if combination = .any && primary.filter (fun r => r.status = .met) ≠ [] then
    primary.filter fun r => r.status = .met
  else primary

/-- An accepted risk carries these primary slots. -/
def riskAccepted (acceptedRisk : Bool) (observed : Status) (counted : List SlotResult) : Bool :=
  acceptedRisk && (observed = .failed || observed = .inconclusive)
    && counted.flatMap SlotResult.results ≠ []
    && (counted.flatMap SlotResult.results).all fun r => r.failing || r.status = .met

/-- What a criterion shows, by its primary slots. -/
def verdictOf (combination : Combination) (primary : List SlotResult) (acceptedRisk : Bool) :
    Status × Exception × Assurance :=
  let counted := countedOf combination primary
  let observed := combined combination (primary.map SlotResult.status)
  let risk := riskAccepted acceptedRisk observed counted
  let witnessException := observed = .met && counted.any SlotResult.excepted
  (if witnessException || risk then .excepted else observed,
    if risk then .acceptedRisk else if witnessException then .witnessException else .none,
    if observed = .met then
      match combination with
      | .any => strongestOf Assurance.rank .none (counted.map SlotResult.assurance)
      | .all => weakestOf Assurance.rank .none (counted.map SlotResult.assurance)
    else if risk then .declared
    else weakestOf Assurance.rank .none
      ((counted.flatMap SlotResult.results).map WitnessResult.assurance))

/-- **Only the primary slots show.** -/
theorem contractResult_verdict :
    (contractResult instances id contract entries options).verdict
      = verdictOf contract.combination
        (contract.primary.map (slotResult instances id contract entries options))
        options.acceptedRisk := by
  unfold contractResult CriterionResult.verdict
  dsimp only
  rw [primary_slotResults]
  rfl

theorem countedOf_eq_primary {combination : Combination} {primary : List SlotResult}
    (h : combined combination (primary.map SlotResult.status) ≠ .met) :
    countedOf combination primary = primary := by
  unfold countedOf
  split
  · next hany =>
      simp only [Bool.and_eq_true, decide_eq_true_eq] at hany
      obtain ⟨rfl, hne⟩ := hany
      obtain ⟨r, hr⟩ := List.exists_mem_of_ne_nil _ hne
      obtain ⟨hr, hmet⟩ := List.mem_filter.mp hr
      refine absurd (combined_any_met_iff.mpr ?_) h
      exact List.mem_map.mpr ⟨r, hr, of_decide_eq_true hmet⟩
  · rfl

/-- The rule of the accepted risk looks at all the primary slots. -/
theorem riskAccepted_iff :
    riskAccepted options.acceptedRisk (observedStatus instances id contract entries options)
        (countedOf contract.combination
          (contract.primary.map (slotResult instances id contract entries options))) = true
      ↔ RiskApplies instances id contract entries options := by
  unfold riskAccepted RiskApplies
  simp only [Bool.and_eq_true, Bool.or_eq_true, decide_eq_true_eq, List.all_eq_true, and_assoc]
  refine and_congr_right fun _ => and_congr_right fun hobserved => ?_
  have hmet : combined contract.combination
      ((contract.primary.map (slotResult instances id contract entries options)).map
        SlotResult.status) ≠ .met := by
    rw [← observedStatus_eq]
    rcases hobserved with h | h <;> rw [h] <;> exact nofun
  rw [countedOf_eq_primary hmet, List.flatMap_map]
  simp only [slotResult_results, ne_eq, List.flatMap_eq_nil_iff, not_forall, List.mem_flatMap,
    forall_exists_index, and_imp, exists_prop]
  exact and_congr_right fun _ => ⟨fun h slot hs w hw => h w slot hs hw, fun h w slot hs hw => h slot hs w hw⟩

/-- The components of the verdict. -/
theorem contractResult_status :
    (contractResult instances id contract entries options).status =
      if (observedStatus instances id contract entries options = .met
            && (countedOf contract.combination (contract.primary.map
              (slotResult instances id contract entries options))).any SlotResult.excepted)
          || riskAccepted options.acceptedRisk (observedStatus instances id contract entries options)
            (countedOf contract.combination (contract.primary.map
              (slotResult instances id contract entries options))) then .excepted
      else observedStatus instances id contract entries options := by
  have hverdict := congrArg Prod.fst
    (contractResult_verdict : (contractResult instances id contract entries options).verdict = _)
  rw [observedStatus_eq]
  exact hverdict

theorem contractResult_exception_witness
    (h : (contractResult instances id contract entries options).exception = .witnessException) :
    observedStatus instances id contract entries options = .met
      ∧ ∃ r ∈ countedOf contract.combination (contract.primary.map
          (slotResult instances id contract entries options)), r.excepted = true := by
  have hverdict := congrArg (fun v => v.2.1)
    (contractResult_verdict : (contractResult instances id contract entries options).verdict = _)
  rw [observedStatus_eq]
  simp only [CriterionResult.verdict, verdictOf, h] at hverdict
  split at hverdict
  · cases hverdict
  · split at hverdict
    · next hexception =>
        simpa only [Bool.and_eq_true, decide_eq_true_eq, List.any_eq_true] using hexception
    · cases hverdict

theorem contractResult_assurance_met
    (h : observedStatus instances id contract entries options = .met) :
    (contractResult instances id contract entries options).assurance =
      match contract.combination with
      | .any => strongestOf Assurance.rank .none ((countedOf .any (contract.primary.map
          (slotResult instances id contract entries options))).map SlotResult.assurance)
      | .all => weakestOf Assurance.rank .none ((contract.primary.map
          (slotResult instances id contract entries options)).map SlotResult.assurance) := by
  have hverdict := congrArg (fun v => v.2.2)
    (contractResult_verdict : (contractResult instances id contract entries options).verdict = _)
  rw [observedStatus_eq] at h
  simp only [CriterionResult.verdict, verdictOf, h, if_true] at hverdict
  rw [hverdict]
  cases contract.combination with
  | any => rfl
  | all => rfl

theorem combined_basic (combination : Combination) (statuses : List Status) :
    (combined combination statuses).basic := by
  intro hexcepted
  cases combination with
  | all =>
      unfold combined strongestBlocker at hexcepted
      dsimp only at hexcepted
      cases hfind : [Status.failed, .inconclusive, .missing, .pending].find? (fun s => s ∈ statuses) with
      | none =>
          rw [hfind] at hexcepted
          cases hexcepted
      | some s =>
          rw [hfind] at hexcepted
          obtain rfl : s = .excepted := hexcepted
          exact absurd (List.mem_of_find?_eq_some hfind) (by simp)
  | any =>
      unfold combined at hexcepted
      dsimp only at hexcepted
      split at hexcepted
      · cases hexcepted
      · cases hfind : [Status.pending, .missing, .inconclusive, .failed].find? (fun s => s ∈ statuses) with
        | none =>
            rw [hfind] at hexcepted
            cases hexcepted
        | some s =>
            rw [hfind] at hexcepted
            obtain rfl : s = .excepted := hexcepted
            exact absurd (List.mem_of_find?_eq_some hfind) (by simp)

/-- **When a criterion passes**: its primary slots are met, or an accepted risk
carries them. -/
theorem contractResult_passes_iff :
    (contractResult instances id contract entries options).status = .met
        ∨ (contractResult instances id contract entries options).status = .excepted
      ↔ observedStatus instances id contract entries options = .met
        ∨ RiskApplies instances id contract entries options := by
  rw [← riskAccepted_iff, contractResult_status]
  by_cases hmet : observedStatus instances id contract entries options = .met
  · refine ⟨fun _ => .inl hmet, fun _ => ?_⟩
    split
    · exact .inr rfl
    · exact .inl hmet
  · have hbasic : (observedStatus instances id contract entries options).basic := combined_basic _ _
    rw [decide_eq_false hmet, Bool.false_and, Bool.false_or]
    split
    · next hrisk => exact ⟨fun _ => .inr hrisk, fun _ => .inr rfl⟩
    · next hrisk =>
        refine ⟨fun h => ?_, fun h => ?_⟩
        · exact absurd h (not_or.mpr ⟨hmet, hbasic⟩)
        · exact absurd h (not_or.mpr ⟨hmet, hrisk⟩)

/-! ## What carries it -/

/-- A slot that is met carries its criterion, with what it is met by. -/
theorem carries_of_met (h : SlotMet instances id contract entries options slot) :
    Carries options (slotResult instances id contract entries options slot) := by
  refine .inl ⟨slotResult_met_iff.mpr h, ?_⟩
  unfold SlotMet at h
  split at h
  · rw [slotResult_results]
    exact .inl h.2.1
  · next htest =>
      right
      unfold slotResult recordSlotResult
      rw [if_neg htest]
      change (recordFor id options slot).isSome = true
      cases hrecord : recordFor id options slot with
      | none =>
          rw [hrecord] at h
          cases h
      | some record => rfl

/-- Where all that was seen passed or failed and the risk was accepted, a slot
carries its criterion if it is met or has failed itself. -/
theorem carries_iff_of_judged (hrisk : options.acceptedRisk = true)
    (hjudged : ∀ w ∈ slotWitnesses instances contract entries options slot,
      w.failing = true ∨ w.status = .met) :
    Carries options (slotResult instances id contract entries options slot)
      ↔ SlotMet instances id contract entries options slot
        ∨ SlotFailing instances contract entries options slot := by
  constructor
  · rintro (⟨hmet, -⟩ | ⟨-, hblocked, ⟨w, hw, hne⟩, hfailing⟩)
    · exact .inl (slotResult_met_iff.mp hmet)
    · rw [slotResult_results] at hw hfailing
      have hsubmitted := (slotResult_blocked_iff hjudged).mp hblocked
      unfold SlotBlocked at hsubmitted
      split at hsubmitted
      · exact .inr ⟨hsubmitted.1, w, hw, hfailing w hw hne⟩
      · next htest =>
          simp [slotWitnesses, htest] at hw
  · rintro (hmet | ⟨hsubmitted, w, hw, hfailing⟩)
    · exact carries_of_met hmet
    · have hstatus := (slotWitnesses_status hw).2 hfailing
      have hwmet : w.status ≠ .met := by rcases hstatus with h | h <;> rw [h] <;> exact nofun
      refine .inr ⟨hrisk, (slotResult_blocked_iff hjudged).mpr ?_, ?_, ?_⟩
      · unfold SlotBlocked
        split
        · next htest =>
            refine ⟨hsubmitted, List.ne_nil_of_mem hw, fun hmet => ?_⟩
            rw [SlotMet, if_pos htest] at hmet
            exact hwmet (hmet.2.2 w hw).1
        · next htest => simp [slotWitnesses, htest] at hw
      · rw [slotResult_results]
        exact ⟨w, hw, hwmet⟩
      · rw [slotResult_results]
        exact fun v hv hne => (hjudged v hv).resolve_right hne

/-- An accepted risk carries the criterion exactly where the slots combine to a stop. -/
theorem observed_blocked_iff (hprimary : contract.primary ≠ [])
    (hjudged : ∀ slot ∈ contract.primary, ∀ w ∈ slotWitnesses instances contract entries options slot,
      w.failing = true ∨ w.status = .met) :
    (observedStatus instances id contract entries options = .failed
        ∨ observedStatus instances id contract entries options = .inconclusive)
      ↔ match contract.combination with
        | .all => ∃ slot ∈ contract.primary, SlotBlocked instances id contract entries options slot
        | .any => ∀ slot ∈ contract.primary, SlotBlocked instances id contract entries options slot := by
  unfold observedStatus
  cases contract.combination with
  | all =>
      rw [combined_all_blocked_iff]
      simp only [List.mem_map, exists_exists_and_eq_and]
      exact exists_congr fun slot => and_congr_right fun hs => slotResult_blocked_iff (hjudged slot hs)
  | any =>
      rw [combined_any_blocked_iff primary_basic (by simpa using hprimary), List.forall_mem_map]
      exact forall₂_congr fun slot hs => slotResult_blocked_iff (hjudged slot hs)

/-- **A criterion is carried by its primary slots unless an accepted risk leaves a gap.** -/
theorem carried_iff (hprimary : contract.primary ≠ []) :
    ((contractResult instances id contract entries options).status = .met
          ∨ (contractResult instances id contract entries options).status = .excepted →
        contract.Combines fun slot =>
          Carries options (slotResult instances id contract entries options slot))
      ↔ ¬ RiskGap instances id contract entries options := by
  rw [contractResult_passes_iff]
  constructor
  · intro hcarried hgap
    have hblocked := @observed_blocked_iff _ id _ _ _ hprimary hgap.judged
    have hcarries := fun slot hs =>
      @carries_iff_of_judged _ id _ _ _ slot hgap.acceptedRisk (hgap.judged slot hs)
    have hrule := hgap.gap
    have happlies : RiskApplies instances id contract entries options := by
      refine ⟨hgap.acceptedRisk, hblocked.mpr ?_, hgap.seen, hgap.judged⟩
      cases hcombination : contract.combination with
      | all =>
          rw [hcombination] at hrule
          exact hrule.1
      | any =>
          rw [hcombination] at hrule
          exact fun slot hs => (hrule slot hs).1
    have hcombined := hcarried (.inr happlies)
    unfold Contract.Combines at hcombined
    cases hcombination : contract.combination with
    | all =>
        rw [hcombination] at hrule hcombined
        obtain ⟨slot, hs, hmet, hfailing⟩ := hrule.2
        exact ((hcarries slot hs).mp (hcombined slot hs)).elim hmet hfailing
    | any =>
        rw [hcombination] at hrule hcombined
        obtain ⟨slot, hs, hcarries'⟩ := hcombined
        obtain ⟨hslot, hfailing⟩ := hrule slot hs
        refine ((hcarries slot hs).mp hcarries').elim (fun hmet => ?_) hfailing
        -- a slot that is stopped is not met
        unfold SlotBlocked at hslot
        split at hslot
        · exact hslot.2.2 hmet
        · next htest =>
            rw [SlotMet, if_neg htest, hslot] at hmet
            cases hmet
  · rintro hgap (hmet | happlies)
    · have hcombined := observedStatus_met_iff.mp hmet
      unfold Contract.Combines at hcombined ⊢
      cases hcombination : contract.combination with
      | all =>
          rw [hcombination] at hcombined
          exact fun slot hs => carries_of_met (hcombined slot hs)
      | any =>
          rw [hcombination] at hcombined
          obtain ⟨slot, hs, hmet⟩ := hcombined
          exact ⟨slot, hs, carries_of_met hmet⟩
    · obtain ⟨hrisk, hobserved, hseen, hjudged⟩ := happlies
      have hblocked := (observed_blocked_iff hprimary hjudged).mp hobserved
      have hcarries := fun slot hs => @carries_iff_of_judged _ id _ _ _ slot hrisk (hjudged slot hs)
      unfold Contract.Combines
      cases hcombination : contract.combination with
      | all =>
          rw [hcombination] at hblocked
          intro slot hs
          by_contra hnot
          have hnot := not_or.mp (mt (hcarries slot hs).mpr hnot)
          refine hgap ⟨hrisk, hseen, hjudged, ?_⟩
          rw [hcombination]
          exact ⟨hblocked, slot, hs, hnot⟩
      | any =>
          rw [hcombination] at hblocked
          by_contra hnone
          refine hgap ⟨hrisk, hseen, hjudged, ?_⟩
          rw [hcombination]
          intro slot hs
          refine ⟨hblocked slot hs, fun hfailing => hnone ⟨slot, hs, ?_⟩⟩
          exact (hcarries slot hs).mpr (.inr hfailing)

/-- A slot shows an exception only where one is live. -/
theorem liveException_of_excepted
    (h : (slotResult instances id contract entries options slot).excepted = true) :
    LiveException id contract entries options slot := by
  unfold LiveException
  unfold slotResult at h
  split at h
  · next htest =>
      rw [if_pos htest]
      unfold testSlotResult at h
      dsimp only at h
      split at h
      · cases h
      · split at h
        · cases h
        · obtain ⟨entry, hentry, hany⟩ := List.any_eq_true.mp h
          obtain ⟨hserving, hcounts⟩ := List.mem_filter.mp hentry
          cases hdecision : options.decisionFor entry with
          | none =>
              rw [hdecision] at hany
              cases hany
          | some decision =>
              rw [hdecision] at hany
              have hexception : decision.decision = .exception := of_decide_eq_true hany
              refine ⟨entry, hserving, decision, hdecision, hexception, ?_⟩
              rw [Options.counts, hdecision] at hcounts
              simpa [Decision.lapsed, hexception] using hcounts
  · next htest =>
      rw [if_neg htest]
      have hrecord : (recordFor id options slot).any Record.exception = true :=
        (Bool.and_eq_true_iff.mp h).2
      cases hfor : recordFor id options slot with
      | none =>
          rw [hfor] at hrecord
          cases hrecord
      | some record =>
          rw [hfor] at hrecord
          exact ⟨record, rfl, hrecord⟩

/-- The primary slots that count under a criterion that is met are met. -/
theorem countedOf_met (hmet : observedStatus instances id contract entries options = .met)
    {r : SlotResult}
    (hr : r ∈ countedOf contract.combination (contract.primary.map
      (slotResult instances id contract entries options))) :
    ∃ slot ∈ contract.primary, r = slotResult instances id contract entries options slot
      ∧ SlotMet instances id contract entries options slot := by
  rw [observedStatus_met_iff] at hmet
  unfold Contract.Combines at hmet
  have hprimary : ∀ r ∈ contract.primary.map (slotResult instances id contract entries options),
      ∃ slot ∈ contract.primary, slotResult instances id contract entries options slot = r :=
    fun r hr => List.mem_map.mp hr
  unfold countedOf at hr
  split at hr
  · obtain ⟨hr, hstatus⟩ := List.mem_filter.mp hr
    obtain ⟨slot, hs, rfl⟩ := hprimary r hr
    exact ⟨slot, hs, rfl, slotResult_met_iff.mp (of_decide_eq_true hstatus)⟩
  · next hany =>
      obtain ⟨slot, hs, rfl⟩ := hprimary r hr
      refine ⟨slot, hs, rfl, ?_⟩
      cases hcombination : contract.combination with
      | all =>
          rw [hcombination] at hmet
          exact hmet slot hs
      | any =>
          -- one slot is met, so that only those that are met count
          rw [hcombination] at hmet hany
          obtain ⟨other, hother, hmet⟩ := hmet
          refine absurd ?_ hany
          simp only [Bool.and_eq_true, decide_eq_true_eq, true_and, ne_eq]
          refine List.ne_nil_of_mem (List.mem_filter.mpr ⟨List.mem_map.mpr ⟨other, hother, rfl⟩, ?_⟩)
          exact decide_eq_true (slotResult_met_iff.mpr hmet)

theorem weakestOf_le {α : Type} {rank : α → Nat} {none : α} {values : List α} {a : α}
    (ha : a ∈ values) : rank (weakestOf rank none values) ≤ rank a := by
  cases values with
  | nil => cases ha
  | cons first rest => exact rank_weakest_le first rest a ha

theorem strongestOf_mem {α : Type} {rank : α → Nat} {none : α} {values : List α} (h : values ≠ []) :
    strongestOf rank none values ∈ values := by
  cases values with
  | nil => exact absurd rfl h
  | cons first rest => exact strongest_mem first rest

/-- A criterion is sound as soon as its primary slots carry it. -/
theorem sound_of_carried
    (hcarried : (contractResult instances id contract entries options).status = .met
        ∨ (contractResult instances id contract entries options).status = .excepted →
      contract.Combines fun slot =>
        Carries options (slotResult instances id contract entries options slot)) :
    Sound instances id contract entries options where
  carried := hcarried
  exception h := by
    obtain ⟨hmet, r, hr, hexcepted⟩ := contractResult_exception_witness h
    obtain ⟨slot, hs, rfl, hslot⟩ := countedOf_met hmet hr
    exact ⟨slot, hs, hslot, liveException_of_excepted hexcepted⟩
  assurance h := by
    have hmet : observedStatus instances id contract entries options = .met := by
      rw [contractResult_status] at h
      split at h
      · cases h
      · exact h
    have hassurance := contractResult_assurance_met hmet
    have hcounted := fun r hr => countedOf_met (r := r) hmet hr
    have hcombines := observedStatus_met_iff.mp hmet
    unfold Contract.Combines at hcombines
    cases hcombination : contract.combination with
    | all =>
        rw [hcombination] at hassurance
        intro slot hs
        rw [hassurance]
        exact weakestOf_le (List.mem_map.mpr ⟨_, List.mem_map.mpr ⟨slot, hs, rfl⟩, rfl⟩)
    | any =>
        rw [hcombination] at hassurance hcounted hcombines
        obtain ⟨slot, hs, hslot⟩ := hcombines
        have hne : (countedOf .any (contract.primary.map
            (slotResult instances id contract entries options))).map SlotResult.assurance ≠ [] := by
          unfold countedOf
          split
          · next hany =>
              simp only [Bool.and_eq_true, decide_eq_true_eq, true_and] at hany
              exact fun hnil => hany (List.map_eq_nil_iff.mp hnil)
          · exact List.ne_nil_of_mem (List.mem_map.mpr ⟨_, List.mem_map.mpr ⟨slot, hs, rfl⟩, rfl⟩)
        have hmem := @strongestOf_mem _ Assurance.rank .none _ hne
        obtain ⟨r, hr, heq⟩ := List.mem_map.mp hmem
        obtain ⟨counted, hcounted, rfl, hmet⟩ := hcounted r hr
        exact ⟨counted, hcounted, hmet, heq.trans hassurance.symm⟩

end Result

/-! ## The supporting slots -/

section Supporting

variable {instances : TestWitness → Text → Bool} {contract : Contract}

/-- A slot is judged by the witnesses that serve it, and nothing else of its contract. -/
theorem slotResult_congr {id : Text} {other : Contract} {entries kept : List Entry}
    {options : Options} {slot : Slot} (h : serving contract slot entries = serving other slot kept) :
    slotResult instances id contract entries options slot
      = slotResult instances id other kept options slot := by
  unfold slotResult
  split
  · unfold testSlotResult
    rw [h]
  · rfl

theorem primaryOnly_primary : contract.primaryOnly.primary = contract.primary := by
  unfold Contract.primaryOnly Contract.primary
  rw [List.filter_filter]
  exact List.filter_congr fun _ _ => Bool.and_self _

/-- The verdict is the same where the same witnesses serve the primary slots. -/
theorem verdict_congr {id : Text} {other : Contract} {entries kept : List Entry} {options : Options}
    (hcombination : contract.combination = other.combination)
    (hprimary : contract.primary = other.primary)
    (hserving : ∀ slot ∈ contract.primary, serving contract slot entries = serving other slot kept) :
    (contractResult instances id contract entries options).verdict
      = (contractResult instances id other kept options).verdict := by
  rw [contractResult_verdict, contractResult_verdict, ← hcombination, ← hprimary]
  congr 1
  exact List.map_congr_left fun slot hs => slotResult_congr (hserving slot hs)

/-- A primary slot of a held contract is served by the witnesses of primary slots. -/
theorem serving_primary (h : Held contract) {slot : Slot} (hslot : slot ∈ contract.primary)
    (entries : List Entry) :
    serving contract slot entries
      = serving contract slot (entries.filter fun entry =>
          (testSlotFor contract entry.witness.testSource).all Slot.isPrimary) := by
  unfold serving
  rw [List.filter_filter]
  refine List.filter_congr fun entry _ => ?_
  obtain ⟨hmem, hprimary⟩ := List.mem_filter.mp hslot
  cases hserves : testSlotFor contract entry.witness.testSource with
  | none => rfl
  | some served =>
      have hserved : served ∈ contract.slots := (List.mem_filter.mp (testSlotFor_mem hserves)).1
      by_cases hname : served.slot = slot.slot
      · obtain rfl := h.slot_inj hserved hmem hname
        simp [hprimary]
      · simp [hname]

/-- Where no supporting slot comes first, a file serves the same primary slot
without the supporting ones. -/
theorem testSlotFor_primaryOnly (h : Held contract) (hshadowed : ¬ Shadowed contract) {slot : Slot}
    (hslot : slot ∈ contract.primary) (testSource : Text) :
    (testSlotFor contract testSource).map Slot.slot = some slot.slot
      ↔ (testSlotFor contract.primaryOnly testSource).map Slot.slot = some slot.slot := by
  obtain ⟨hmem, hprimary⟩ := List.mem_filter.mp hslot
  rcases h with h | ⟨_, _, rfl⟩
  · rw [h.testSlotFor, h.primaryOnly.testSlotFor]
    have htests : contract.primaryOnly.tests = contract.tests.filter Slot.isPrimary := by
      unfold Contract.primaryOnly Contract.tests Contract.primary
      rw [List.filter_filter, List.filter_filter]
      exact List.filter_congr fun _ _ => Bool.and_comm _ _
    rw [htests]
    cases hfind : contract.tests.find? fun slot => slot.witness.path? = some testSource with
    | none =>
        rw [List.find?_eq_none] at hfind
        rw [List.find?_eq_none.mpr fun s hs => hfind s (List.mem_filter.mp hs).1]
    | some first =>
        have hfirst := List.mem_of_find?_eq_some hfind
        have hpath := List.find?_some hfind
        cases hrole : first.role with
        | primary =>
            rw [List.find?_filter]
            obtain ⟨before, after, heq, hbefore⟩ := (List.find?_eq_some_iff_append.mp hfind).2
            rw [List.find?_eq_some_iff_append.mpr ⟨?_, before, after, heq, fun s hs => ?_⟩]
            · simpa [Slot.isPrimary, hrole] using hpath
            · have := hbefore s hs
              simp only [Bool.not_eq_true'] at this
              simp [this]
        | supporting =>
            have hnone : (contract.tests.filter Slot.isPrimary).find?
                (fun slot => slot.witness.path? = some testSource) = none := by
              rw [List.find?_eq_none]
              intro other hother hnamed
              obtain ⟨hother, hother'⟩ := List.mem_filter.mp hother
              exact hshadowed ⟨first, hfirst, other, hother, hrole, of_decide_eq_true hother',
                testSource, of_decide_eq_true hnamed, hfind⟩
            rw [hnone]
            refine ⟨fun hname => ?_, nofun⟩
            have heq := List.inj_on_of_nodup_map h.names (List.mem_filter.mp hfirst).1 hmem
              (Option.some_inj.mp hname)
            rw [← heq, Slot.isPrimary, hrole] at hprimary
            cases hprimary
  · rfl

/-- **The supporting slots do not count**, where none comes first for the file of a
primary slot. -/
theorem supportingAside_of_not_shadowed (h : Held contract) (hshadowed : ¬ Shadowed contract) :
    SupportingAside instances contract where
  slots id entries options := by
    refine verdict_congr rfl primaryOnly_primary.symm fun slot hs => ?_
    unfold serving
    refine List.filter_congr fun entry _ => ?_
    exact decide_eq_decide.mpr (testSlotFor_primaryOnly h hshadowed hs _)
  witnesses id entries options :=
    verdict_congr rfl rfl fun _ hs => serving_primary h hs entries

/-! ### A file that a supporting slot takes -/

/-- A test of a file in a run of its command, passed by the test's own occurrence
or failed as a whole. -/
def runOf (testSource : Text) (passed : Bool) : Entry where
  witness := {
    clauseId := js "A:AC-001", testSource, line := none, profile := .jest, nodeTap := false
    commandId := none, logicalTestId := none
    identity := if passed then some (.script [] (js "t")) else none
    parameters := none, gaps := [] }
  attempt := some {
    attemptId := js "1", terminal := true, timedOut := false
    status := if passed then .passed else .failed, exitCode := none, failed := 0, skipped := 0
    nodeTap := false, occurrences := [⟨none, [], js "t", none, none, .passed, false⟩] }
  ready := true

/-- A submitted delivery, without decisions and records. -/
def plainOptions : Options where
  submitted := true
  rowSubmitted := true
  requiredAssurance := .none
  decisionFor _ := none
  unattached := []
  records := []
  acceptedRisk := false
  now := none

theorem runOf_serving {slot : Slot} {testSource : Text} {passed : Bool} (htest : slot.method = .test) :
    slotWitnesses instances contract [runOf testSource passed] plainOptions slot =
      if (testSlotFor contract testSource).map Slot.slot = some slot.slot then
        [witnessResult instances (runOf testSource passed).witness (runOf testSource passed).attempt true]
      else [] := by
  have hsource : (runOf testSource passed).witness.testSource = testSource := rfl
  unfold slotWitnesses serving
  rw [if_pos htest, List.filter_singleton, hsource]
  by_cases hserves : (testSlotFor contract testSource).map Slot.slot = some slot.slot
  · rw [if_pos hserves, decide_eq_true hserves]
    rfl
  · rw [if_neg hserves, decide_eq_false hserves]
    rfl

/-- The primary slots miss their witnesses where a supporting slot takes the file. -/
theorem observed_shadowed {id : Text} {testSource : Text} {passed : Bool} (h : Held contract)
    {supporting : Slot} (hrole : supporting.role = .supporting)
    (hserves : testSlotFor contract testSource = some supporting) :
    observedStatus instances id contract [runOf testSource passed] plainOptions = .missing := by
  have hstatus : ∀ s ∈ contract.primary.map (fun slot =>
      (slotResult instances id contract [runOf testSource passed] plainOptions slot).status),
      s = .missing := by
    refine List.forall_mem_map.mpr fun slot hslot => ?_
    obtain ⟨hmem, hprimary⟩ := List.mem_filter.mp hslot
    by_cases htest : slot.method = .test
    · have hother : ¬ (some supporting).map Slot.slot = some slot.slot := by
        intro hname
        obtain rfl := h.slot_inj (List.mem_filter.mp (testSlotFor_mem hserves)).1 hmem
          (Option.some_inj.mp hname)
        rw [Slot.isPrimary, hrole] at hprimary
        cases hprimary
      rw [slotResult_test htest, runOf_serving htest, hserves, if_neg hother]
      rfl
    · rw [slotResult_record htest]
      rfl
  unfold observedStatus
  generalize hs : contract.primary.map (fun slot =>
    (slotResult instances id contract [runOf testSource passed] plainOptions slot).status) = statuses
    at hstatus
  have hmissing : Status.missing ∈ statuses := by
    have hne : statuses ≠ [] := by
      rw [← hs]
      simpa using h.primary
    obtain ⟨s, hs⟩ := List.exists_mem_of_ne_nil statuses hne
    exact hstatus s hs ▸ hs
  have hothers : ∀ s, s ≠ Status.missing → s ∉ statuses := fun s hne hs => hne (hstatus s hs)
  cases contract.combination with
  | all =>
      simp [combined, strongestBlocker, hmissing, hothers .failed nofun, hothers .inconclusive nofun]
  | any => simp [combined, hmissing, hothers .met nofun, hothers .pending nofun]

/-- Without the supporting slots the same file fails or meets a primary slot. -/
theorem observed_unshadowed {id : Text} {testSource : Text} (h : Accepted contract) {slot : Slot}
    (hslot : slot ∈ contract.primary) (hserves : testSlotFor contract testSource = some slot) :
    observedStatus instances id contract [runOf testSource (contract.combination = .any)] plainOptions
      ≠ .missing := by
  have htest : slot.method = .test :=
    of_decide_eq_true (List.mem_filter.mp (testSlotFor_mem hserves)).2
  have hwitnesses : ∀ passed,
      slotWitnesses instances contract [runOf testSource passed] plainOptions slot
        = [witnessResult instances (runOf testSource passed).witness
            (runOf testSource passed).attempt true] := by
    intro passed
    rw [runOf_serving htest, hserves]
    exact if_pos rfl
  cases hcombination : contract.combination with
  | all =>
      have hfailed : (slotResult instances id contract [runOf testSource false] plainOptions slot).status
          = .failed := by
        rw [slotResult_test htest, hwitnesses]
        rfl
      have hmem : Status.failed ∈ contract.primary.map (fun slot =>
          (slotResult instances id contract [runOf testSource false] plainOptions slot).status) :=
        List.mem_map.mpr ⟨slot, hslot, hfailed⟩
      have hblocked := combined_all_blocked_iff.mpr ⟨_, hmem, .inl rfl⟩
      unfold observedStatus
      rw [hcombination]
      intro hmissing
      rcases hblocked with hblocked | hblocked <;> cases hblocked.symm.trans hmissing
  | any =>
      have hrank : (slotRequirement instances contract [runOf testSource true] plainOptions slot).rank
          ≤ Assurance.exactLocalObserved.rank := by
        unfold slotRequirement
        rw [hwitnesses]
        rcases List.mem_cons.mp (strongest_mem _ _) with hreq | hreq
        · rw [hreq]
          exact Nat.zero_le _
        · rcases List.mem_cons.mp hreq with hreq | hreq
          · rw [hreq]
            exact h.requiredAssurance_le (List.mem_filter.mp hslot).1 htest
          · rw [List.mem_singleton.mp hreq]
            exact Nat.le_refl _
      have hmet : SlotMet instances id contract [runOf testSource true] plainOptions slot := by
        unfold SlotMet
        rw [if_pos htest, hwitnesses]
        refine ⟨rfl, List.cons_ne_nil _ _, fun w hw => ?_⟩
        rw [List.mem_singleton.mp hw]
        exact ⟨rfl, hrank⟩
      have hobserved : observedStatus instances id contract [runOf testSource true] plainOptions = .met := by
        rw [observedStatus_met_iff, Contract.Combines, hcombination]
        exact ⟨slot, hslot, hmet⟩
      intro hmissing
      cases hobserved.symm.trans hmissing

theorem status_missing_iff {id : Text} {entries : List Entry} :
    (contractResult instances id contract entries plainOptions).status = .missing
      ↔ observedStatus instances id contract entries plainOptions = .missing := by
  rw [contractResult_status]
  have hrisk : ∀ observed counted, riskAccepted plainOptions.acceptedRisk observed counted = false :=
    fun _ _ => rfl
  rw [hrisk, Bool.or_false]
  constructor
  · intro h
    split at h
    · cases h
    · exact h
  · intro h
    rw [h]
    rfl

/-- A supporting slot that comes first takes a witness from a primary one. -/
theorem not_shadowed_of_supportingAside (h : Held contract) (haside : SupportingAside instances contract) :
    ¬ Shadowed contract := by
  rintro ⟨supporting, hsupporting, primary, hprimary, hrole, hprole, path, hpath, hfind⟩
  rcases h with h | ⟨clauseId, tests, rfl⟩
  · have hserves : testSlotFor contract path = some supporting := (h.testSlotFor path).trans hfind
    obtain ⟨hmem, htest⟩ := List.mem_filter.mp hprimary
    have hkept : primary ∈ contract.primaryOnly.tests :=
      List.mem_filter.mpr ⟨List.mem_filter.mpr ⟨hmem, decide_eq_true hprole⟩, htest⟩
    -- without the supporting slots the file serves a primary one
    obtain ⟨slot, hslot⟩ : ∃ slot, testSlotFor contract.primaryOnly path = some slot := by
      rw [h.primaryOnly.testSlotFor]
      cases hnone : contract.primaryOnly.tests.find? fun slot => slot.witness.path? = some path with
      | some slot => exact ⟨slot, rfl⟩
      | none => exact absurd (decide_eq_true hpath) (List.find?_eq_none.mp hnone primary hkept)
    have hslot' : slot ∈ contract.primaryOnly.primary := by
      rw [primaryOnly_primary]
      exact (List.mem_filter.mp (testSlotFor_mem hslot)).1
    have hmissing : observedStatus instances contract.clauseId contract
        [runOf path (contract.combination = .any)] plainOptions = .missing :=
      observed_shadowed (.inl h) hrole hserves
    have hstatus := congrArg Prod.fst (haside.slots contract.clauseId
      [runOf path (contract.combination = .any)] plainOptions)
    exact observed_unshadowed h.primaryOnly hslot' hslot
      (status_missing_iff.mp (hstatus.symm.trans (status_missing_iff.mpr hmissing)))
  · have hsingle := List.mem_singleton.mp (List.mem_filter.mp hsupporting).1
    rw [hsingle] at hrole
    cases hrole

end Supporting

/-! ## The main theorem -/

section Main

variable {instances : TestWitness → Text → Bool} {toUpperCase : Text → Text}
  {raw contracts : List Contract} {clauseId : Text} {claim : Option PlannedClaim}
  {effective : Effective}

/-- **What a criterion passes by**, for every contract that was read back from a
record and every default one: its primary slots carry it and the supporting ones
do not count, exactly where an accepted risk leaves no gap and no supporting slot
comes first for the file of a primary one. -/
theorem sound_iff (hread : normalizeVerificationContracts toUpperCase raw = .ok contracts)
    (heffective : effectiveContract clauseId contracts claim = some effective)
    (entries : List Entry) (options : Options) :
    (Sound instances clauseId effective.contract entries options
        ∧ SupportingAside instances effective.contract)
      ↔ ¬ RiskGap instances clauseId effective.contract entries options
        ∧ ¬ Shadowed effective.contract := by
  have hheld := held_of_effectiveContract (accepted_of_normalize hread).1 heffective
  constructor
  · rintro ⟨hsound, haside⟩
    exact ⟨(carried_iff hheld.primary).mp hsound.carried, not_shadowed_of_supportingAside hheld haside⟩
  · rintro ⟨hgap, hshadowed⟩
    exact ⟨sound_of_carried ((carried_iff hheld.primary).mpr hgap),
      supportingAside_of_not_shadowed hheld hshadowed⟩

/-- A criterion with two tests, both required. -/
def twoTests : Contract where
  clauseId := js "A:AC-001"
  combination := .all
  reason := none
  slots := [⟨js "a", .test, .primary, .path (js "a.mjs"), none⟩,
    ⟨js "b", .test, .primary, .path (js "b.mjs"), none⟩]

/-- Both tests were run and one of them failed. -/
theorem sound_twoTests :
    (Sound (fun _ _ => false) (js "A:AC-001") twoTests
        [runOf (js "a.mjs") false, runOf (js "b.mjs") true] { plainOptions with acceptedRisk := true }
      ∧ SupportingAside (fun _ _ => false) twoTests)
      ↔ ¬ RiskGap (fun _ _ => false) (js "A:AC-001") twoTests
          [runOf (js "a.mjs") false, runOf (js "b.mjs") true] { plainOptions with acceptedRisk := true }
        ∧ ¬ Shadowed twoTests :=
  @sound_iff (fun _ _ => false) (fun t => t) [twoTests] [twoTests] (js "A:AC-001") none
    ⟨twoTests, true⟩ (by decide +kernel) (by decide +kernel) _ _

/-- **A missing witness is carried by the failure of another**: of two required tests
one failed, the other was never run, and the accepted risk excepts the criterion. -/
theorem risk_carries_missing_slot :
    normalizeVerificationContracts (fun t => t) [twoTests] = .ok [twoTests]
      ∧ effectiveContract (js "A:AC-001") [twoTests] none = some ⟨twoTests, true⟩
      ∧ ¬ Sound (fun _ _ => false) (js "A:AC-001") twoTests [runOf (js "a.mjs") false]
        { plainOptions with acceptedRisk := true } := by
  refine ⟨by decide +kernel, by decide +kernel, fun hsound => ?_⟩
  have hslot : (⟨js "b", .test, .primary, .path (js "b.mjs"), none⟩ : Slot) ∈ twoTests.primary := by
    decide +kernel
  rcases hsound.carried (by decide +kernel) _ hslot with ⟨hmet, -⟩ | ⟨-, hblocked, -⟩
  · exact absurd hmet (by decide +kernel)
  · exact absurd hblocked (by decide +kernel)

end Main

end Verification

end SingularityFlow
