/-
# A correction leaves the other criteria alone

A correction of a plan names the criteria that it corrects.  The row and the
contract of every other criterion are as they were after it: an operation sets one
row, and of the contracts only the one of its criterion is rewritten, where the
others are read back as they are.
-/
import SingularityFlow.Verification.Replay
import Mathlib.Data.Option.Basic

namespace SingularityFlow

open Ecma

namespace Verification

/-! ## What is looked up -/

/-- The plan has the same row and the same contract for the criterion. -/
structure Untouched (clauseId : Text) (before after : Plan) : Prop where
  row : after.claim clauseId = before.claim clauseId
  contract : contractFor after.contracts clauseId = contractFor before.contracts clauseId

theorem Untouched.refl {clauseId : Text} {plan : Plan} : Untouched clauseId plan plan := ⟨rfl, rfl⟩

theorem Untouched.trans {clauseId : Text} {plan plan' plan'' : Plan} (h : Untouched clauseId plan plan')
    (h' : Untouched clauseId plan' plan'') : Untouched clauseId plan plan'' :=
  ⟨h'.row.trans h.row, h'.contract.trans h.contract⟩

theorem claim_setClaim_of_ne {plan : Plan} {id clauseId : Text} {claim : PlannedClaim}
    (h : clauseId ≠ id) : (plan.setClaim id claim).claim clauseId = plan.claim clauseId := by
  have hother : ∀ row : Text × PlannedClaim, row.1 = clauseId →
      (if row.1 = id then (id, claim) else row) = row :=
    fun row hrow => if_neg fun heq => h (hrow.symm.trans heq)
  unfold Plan.claim Plan.setClaim setClaim mapGet
  dsimp only
  split
  · rw [List.find?_map]
    have hsame : ((fun row : Text × PlannedClaim => decide (row.1 = clauseId))
        ∘ fun row => if row.1 = id then (id, claim) else row)
        = fun row => decide (row.1 = clauseId) := by
      funext row
      by_cases hrow : row.1 = id
      · simp [hrow, Ne.symm h]
      · simp [hrow]
    rw [hsame]
    cases hfind : plan.claims.find? fun row => decide (row.1 = clauseId) with
    | none => rfl
    | some row =>
        have hkey := List.find?_some hfind
        rw [Option.map_some, hother row (of_decide_eq_true hkey)]
  · rw [List.find?_append, List.find?_cons_of_neg (by simpa using Ne.symm h), List.find?_nil,
      Option.or_none]

theorem contractFor_append {first second : List Contract} {clauseId : Text} :
    contractFor (first ++ second) clauseId
      = (contractFor second clauseId).or (contractFor first clauseId) := by
  rw [contractFor, List.reverse_append, List.find?_append]
  rfl

theorem contractFor_filter {contracts : List Contract} {id clauseId : Text} (h : clauseId ≠ id) :
    contractFor (contracts.filter fun c => c.clauseId ≠ id) clauseId
      = contractFor contracts clauseId := by
  rw [contractFor, contractFor, ← List.filter_reverse, List.find?_filter]
  congr 1
  funext contract
  by_cases heq : contract.clauseId = clauseId
  · simp [heq, h]
  · simp [heq]

/-- Contracts of other criteria are rewritten, under their own ids. -/
theorem contractFor_map {contracts : List Contract} {rewrite : Contract → Contract} {clauseId : Text}
    (hid : ∀ c, (rewrite c).clauseId = c.clauseId)
    (hsame : ∀ c, c.clauseId = clauseId → rewrite c = c) :
    contractFor (contracts.map rewrite) clauseId = contractFor contracts clauseId := by
  unfold contractFor
  rw [← List.map_reverse, List.find?_map]
  have hpred : ((fun c : Contract => decide (c.clauseId = clauseId)) ∘ rewrite)
      = fun c => decide (c.clauseId = clauseId) := funext fun c => by simp [hid]
  rw [hpred]
  cases hfind : contracts.reverse.find? fun c => decide (c.clauseId = clauseId) with
  | none => rfl
  | some c =>
      have hid := List.find?_some hfind
      exact congrArg some (hsame c (of_decide_eq_true hid))

section Frame

variable {sha : PlannedClaim → Text} {toUpperCase : Text → Text} {isUuid isDatetime : Text → Bool}
  {plan plan' : Plan} {clauseId : Text}

/-- Where upper case keeps the ids, contracts are accepted as they are. -/
theorem normalize_eq_self {contracts result : List Contract}
    (h : normalizeVerificationContracts toUpperCase contracts = .ok result)
    (hids : ∀ contract ∈ contracts, toUpperCase contract.clauseId = contract.clauseId) :
    result = contracts := by
  have hfrom : ∀ {contracts result : List Contract} {seen : List Text},
      (∀ contract ∈ contracts, toUpperCase contract.clauseId = contract.clauseId) →
      normalizeFrom toUpperCase seen contracts = .ok result → result = contracts := by
    intro contracts
    induction contracts with
    | nil =>
        intro result seen _ h
        cases h
        rfl
    | cons contract rest ih =>
        intro result seen hids h
        obtain ⟨hid, hrest⟩ := List.forall_mem_cons.mp hids
        obtain ⟨normalized, hcontract, h⟩ := bind_eq_ok_iff.mp h
        obtain ⟨others, hothers, h⟩ := bind_eq_ok_iff.mp h
        cases h
        rw [ih hrest hothers, normalizeContract_eq hcontract, hid]
  unfold normalizeVerificationContracts at h
  split at h
  · cases h
  · exact hfrom hids h

/-- Contracts that are read back as they are have ids that upper case keeps. -/
theorem ids_of_normalized (hupper : ∀ t, isAcId t = true → toUpperCase t = t) {contracts : List Contract}
    (h : normalizeVerificationContracts toUpperCase contracts = .ok contracts) :
    ∀ contract ∈ contracts, toUpperCase contract.clauseId = contract.clauseId :=
  fun contract hmem => hupper _ ((accepted_of_normalize h).1 contract hmem).clauseId

/-! ## Corrections of rows -/

theorem untouched_setClaim {id : Text} {claim : PlannedClaim} (h : clauseId ≠ id) :
    Untouched clauseId plan (plan.setClaim id claim) := ⟨claim_setClaim_of_ne h, rfl⟩

theorem untouched_joinContract (hupper : ∀ t, isAcId t = true → toUpperCase t = t) {id test : Text}
    (hcontracts : normalizeVerificationContracts toUpperCase plan.contracts = .ok plan.contracts)
    (hne : clauseId ≠ id) (h : joinContract toUpperCase plan id test = .ok plan') :
    Untouched clauseId plan plan' := by
  unfold joinContract at h
  split at h
  · cases h
    exact .refl
  · obtain ⟨contracts, hnormal, h⟩ := bind_eq_ok_iff.mp h
    cases h
    have hkept := normalize_eq_self hnormal ?_
    · refine ⟨rfl, ?_⟩
      change contractFor contracts clauseId = _
      rw [hkept]
      refine contractFor_map (fun c => ?_) fun c hc => if_neg fun heq => hne (hc.symm.trans heq)
      split <;> rfl
    · intro contract hmem
      obtain ⟨c, hc, rfl⟩ := List.mem_map.mp hmem
      have hid := ids_of_normalized hupper hcontracts c hc
      split <;> exact hid

theorem untouched_applyLocation {refuse : Text → Failure} {id : Text} {claim : PlannedClaim}
    {removed : Text} {added : Option Text} (hne : clauseId ≠ id)
    (h : applyLocation refuse plan id claim removed added = .ok plan') :
    Untouched clauseId plan plan' := by
  obtain ⟨_, -, h⟩ := bind_eq_ok_iff.mp h
  obtain ⟨_, -, h⟩ := bind_eq_ok_iff.mp h
  obtain ⟨_, -, h⟩ := bind_eq_ok_iff.mp h
  cases h
  exact untouched_setClaim hne

theorem untouched_applyOperation (hupper : ∀ t, isAcId t = true → toUpperCase t = t)
    (hcontracts : normalizeVerificationContracts toUpperCase plan.contracts = .ok plan.contracts)
    {refuse : Text → Failure} {operation : Operation} (hne : clauseId ≠ operation.clauseId)
    (h : applyOperation sha toUpperCase refuse plan operation = .ok plan') :
    Untouched clauseId plan plan' := by
  cases operation with
  | addRow id claim =>
      obtain ⟨_, -, h⟩ := bind_eq_ok_iff.mp h
      cases h
      exact untouched_setClaim hne
  | addTest id test previous =>
      obtain ⟨claim, -, h⟩ := bind_eq_ok_iff.mp h
      obtain ⟨_, -, h⟩ := bind_eq_ok_iff.mp h
      obtain ⟨_, -, h⟩ := bind_eq_ok_iff.mp h
      exact (untouched_setClaim hne).trans (untouched_joinContract hupper hcontracts hne h)
  | removeLocation id path previous =>
      obtain ⟨claim, -, h⟩ := bind_eq_ok_iff.mp h
      exact untouched_applyLocation hne h
  | replaceLocation id old new previous =>
      obtain ⟨claim, -, h⟩ := bind_eq_ok_iff.mp h
      exact untouched_applyLocation hne h

theorem untouched_applyOperations (hupper : ∀ t, isAcId t = true → toUpperCase t = t)
    (hcontracts : normalizeVerificationContracts toUpperCase plan.contracts = .ok plan.contracts)
    {refuse : Text → Failure} {operations : List Operation}
    (hne : ∀ operation ∈ operations, clauseId ≠ operation.clauseId)
    (h : applyOperations sha toUpperCase refuse plan operations = .ok plan') :
    Untouched clauseId plan plan' := by
  induction operations generalizing plan with
  | nil =>
      cases h
      exact .refl
  | cons operation rest ih =>
      obtain ⟨hfirst, hrest⟩ := List.forall_mem_cons.mp hne
      obtain ⟨next, hnext, h⟩ := bind_eq_ok_iff.mp h
      have hnormal := (corrects_applyOperation hupper hnext).contracts hcontracts
      exact (untouched_applyOperation hupper hcontracts hfirst hnext).trans (ih hnormal hrest h)

/-! ## Corrections of evidence -/

theorem untouched_projectEvidence (hupper : ∀ t, isAcId t = true → toUpperCase t = t) {id path : Text}
    (hcontracts : normalizeVerificationContracts toUpperCase plan.contracts = .ok plan.contracts)
    (hid : isAcId id = true) {claim : PlannedClaim} {method : EvidenceMethod} (hne : clauseId ≠ id)
    (h : projectEvidence toUpperCase plan id claim path method = .ok plan') :
    Untouched clauseId plan plan' := by
  obtain ⟨⟨corrected, contract⟩, hproject, h⟩ := bind_eq_ok_iff.mp h
  obtain ⟨contracts, hnormal, h⟩ := bind_eq_ok_iff.mp h
  cases h
  obtain ⟨results, hresults, hproject⟩ := bind_eq_ok_iff.mp hproject
  have hone := normalize_singleton hresults
  rw [hone] at hproject
  cases hproject
  have hown : (evidenceContract id claim path method).clauseId = id := rfl
  have hkept := normalize_eq_self hnormal ?_
  · refine ⟨claim_setClaim_of_ne hne, ?_⟩
    change contractFor contracts clauseId = _
    rw [hkept, contractFor_append, contractFor_filter hne]
    have hnone : contractFor [{ evidenceContract id claim path method with
        clauseId := toUpperCase (evidenceContract id claim path method).clauseId }] clauseId = none := by
      rw [hown, hupper id hid]
      simp [contractFor, hne.symm]
    rw [hnone, Option.none_or]
  · intro c hc
    rcases List.mem_append.mp hc with hc | hc
    · exact ids_of_normalized hupper hcontracts c (List.mem_of_mem_filter hc)
    · rw [List.mem_singleton.mp hc]
      change toUpperCase (toUpperCase id) = toUpperCase id
      rw [hupper id hid]
      exact hupper id hid

/-! ## Amendments -/

variable (isUuid isDatetime)

/-- The amendment corrects the row or the evidence of the criterion. -/
def touches (value : Value) (clauseId : Text) : Bool :=
  (EvidenceAmendment.ofValue isDatetime value).any (·.clauseId = clauseId)
    || (RowCorrection.ofValue isUuid isDatetime value).any fun correction =>
      correction.operations.any (·.clauseId = clauseId)

variable {isUuid isDatetime} {workflow : Workflow} {root : Option Text}

theorem isAcId_of_ofValue {value : Value} {a : EvidenceAmendment}
    (h : EvidenceAmendment.ofValue isDatetime value = some a) : isAcId a.clauseId = true := by
  cases value with
  | obj members =>
      iterate 11 obtain ⟨_, -, h⟩ := Option.bind_eq_some_iff.mp h
      dsimp only at h
      split at h
      · iterate 12 obtain ⟨_, -, h⟩ := Option.bind_eq_some_iff.mp h
        obtain ⟨_, hform, h⟩ := Option.bind_eq_some_iff.mp h
        cases h
        have hwell := (Option.guard_eq_some' _).mp hform
        simp only [EvidenceAmendment.wellFormed, Bool.and_eq_true] at hwell
        exact hwell.1.1.1.1.1.1.1.1.1.1.2
      · cases h
  | _ => cases h

theorem untouched_applyAmendment (hupper : ∀ t, isAcId t = true → toUpperCase t = t)
    (hcontracts : normalizeVerificationContracts toUpperCase plan.contracts = .ok plan.contracts)
    {value : Value} (hne : touches isUuid isDatetime value clauseId = false)
    (h : applyAmendment sha toUpperCase isUuid isDatetime workflow root plan value = .ok plan') :
    Untouched clauseId plan plan' := by
  unfold touches at hne
  rw [Bool.or_eq_false_iff] at hne
  obtain ⟨hevidence, hrows⟩ := hne
  unfold applyAmendment at h
  split at h
  · unfold applyEvidence at h
    split at h
    · cases h
    next a ha =>
    rw [ha] at hevidence
    split at h
    · cases h
    split at h
    · cases h
      exact .refl
    split at h
    · cases h
    split at h
    · cases h
    split at h
    · cases h
    refine untouched_projectEvidence hupper hcontracts (isAcId_of_ofValue ha) (fun heq => ?_) h
    simp [heq] at hevidence
  split at h
  · unfold applyRowCorrection at h
    split at h
    · cases h
    next c hc =>
    rw [hc] at hrows
    split at h
    · cases h
    split at h
    · cases h
      exact .refl
    split at h
    · cases h
    refine untouched_applyOperations hupper hcontracts (fun operation hmem heq => ?_) h
    have hone := List.any_eq_false.mp hrows operation hmem
    simp [heq] at hone
  · cases h
    exact .refl

/-- **Corrections of other criteria** leave the row and the contract of a criterion
as they were. -/
theorem untouched_applyAmendments (hupper : ∀ t, isAcId t = true → toUpperCase t = t)
    (hcontracts : normalizeVerificationContracts toUpperCase plan.contracts = .ok plan.contracts)
    {amendments : List Value}
    (hne : ∀ value ∈ amendments, touches isUuid isDatetime value clauseId = false)
    (h : applyAmendments sha toUpperCase isUuid isDatetime workflow root plan amendments = .ok plan') :
    Untouched clauseId plan plan' := by
  induction amendments generalizing plan with
  | nil =>
      cases h
      exact .refl
  | cons value rest ih =>
      obtain ⟨hfirst, hrest⟩ := List.forall_mem_cons.mp hne
      obtain ⟨next, hnext, h⟩ := bind_eq_ok_iff.mp h
      have hnormal := (corrects_applyAmendment hupper hnext).contracts hcontracts
      exact (untouched_applyAmendment hupper hcontracts hfirst hnext).trans (ih hnormal hrest h)

end Frame

end Verification

end SingularityFlow
