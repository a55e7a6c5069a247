/-
# Approved verification intent

A specification says of its clauses by which methods they are to be verified, and
under which criterion.  `validatePlannedVerification` holds a plan to that when it is
published and again when its rows are corrected.

`met_by_intent` is what the evaluation then keeps: as long as only corrections of rows
are recorded, a criterion that is met is met by a primary slot of every method that
was approved for one of its planned clauses.  It says nothing of a clause that the
plan has no row for, and nothing of which tests are behind a test slot: a default slot
takes every test that is tagged for the criterion (`intent_by_other_tests`).
-/
import SingularityFlow.Verification.Soundness
import SingularityFlow.Verification.Replay

namespace SingularityFlow

open Ecma

namespace Verification

/-! ## Intent -/

structure Intent where
  methods : List Method
  criterionId : Option Text
deriving DecidableEq

/-- A clause of the specification, as far as verification reads it. -/
structure Clause where
  id : Text
  verification : Option Intent
deriving DecidableEq

/-- The intent approved for a clause; a later clause replaces an earlier one. -/
def intentFor (clauses : List Clause) (id : Text) : Option Intent :=
  (clauses.reverse.find? fun clause => clause.id = id).bind Clause.verification

def intentInvalid (message : Text) : Failure :=
  .singularityFlow message (some (js "SPEC_VERIFICATION_INTENT_INVALID"))

/-- One of several methods that a slot is not of: one slot cannot stand for them all. -/
def Intent.weakens (intent : Intent) (primary : List Method) : Bool :=
  primary.any fun method => intent.methods.any fun other => method ≠ other

/-- `nonTestVerification`. -/
def nonTestVerification (clauseId : Text) (claim : PlannedClaim) (contracts : List Contract)
    (intent : Option Intent) : Option Contract := do
  guard (!intent.any fun i => .test ∈ i.methods)
  guard (isAcId clauseId || intent.isSome)
  guard (!intent.any fun i =>
    (claim.verificationCriterion.filter (· ≠ [])).any fun criterion => some criterion ≠ i.criterionId)
  let criterionId ← claim.verificationCriterion.or
    ((intent.bind Intent.criterionId).or (if isAcId clauseId then some clauseId else none))
  guard (!isAcId clauseId || criterionId = clauseId)
  let contract ← contractFor contracts criterionId
  let primary := contract.primary.map Slot.method
  guard (primary ≠ [] && primary.all (· ≠ .test))
  guard (intent.all fun i => i.methods.all (· ∈ primary))
  guard (!(contract.combination = .any && intent.any fun i => i.weakens primary))
  return contract

/-- The methods of the primary slots that a criterion is going to have. -/
def plannedMethods (claims : List (Text × PlannedClaim)) (contracts : List Contract)
    (criterionId : Option Text) : List Method :=
  match criterionId.bind (contractFor contracts) with
  | some contract => contract.primary.map Slot.method
  | none =>
      if (criterionId.bind (mapGet claims)).any fun claim => claim.tests ≠ [] then [.test] else []

/-- The check of one planned claim. -/
def validateClaim (claims : List (Text × PlannedClaim)) (contracts : List Contract)
    (clauses : List Clause) (row : Text × PlannedClaim) : Except Failure Unit := do
  let id := row.1
  let claim := row.2
  let intent := intentFor clauses id
  failIf (claim.testDisposition = .nonTest ∧
      ((!isAcId id && intent.isNone) = true
        -- a claim without a criterion differs from every intent
        ∨ intent.any (fun i => claim.verificationCriterion.all fun c => some c ≠ i.criterionId) = true
        ∨ nonTestVerification id claim contracts intent = none))
    (intentInvalid (id ++ js " non-test proof needs its approved AC Criterion and exact primary "
      ++ js "visual/inspection contract; it cannot waive an automated test."))
  match intent with
  | none => return ()
  | some intent =>
      let contract := intent.criterionId.bind (contractFor contracts)
      let primary := plannedMethods claims contracts intent.criterionId
      failIf (.test ∈ intent.methods ∧ (claim.tests = [] ∨ claim.testDisposition ≠ .applicable))
        (intentInvalid (id ++ js " requires automated tests in the approved Specification; plan exact "
          ++ js "test paths instead of an exemption."))
      intent.methods.forM fun method =>
        -- planned test paths implement the default test contract
        if method = .test ∧ contract = none ∧ (intent.criterionId = none ∨ intent.criterionId = some id) then
          .ok ()
        else failIf (method ∉ primary) (intentInvalid (id ++ js " requires primary proof under "
          ++ intent.criterionId.getD [] ++ js "; a supporting slot does not satisfy approved intent."))
      failIf (contract.any (fun c => c.combination = .any) = true ∧ intent.weakens primary = true)
        (intentInvalid (id ++ js " requires all approved verification methods; Combination any would "
          ++ js "weaken the Specification."))

/-- `validatePlannedVerification`. -/
def validatePlannedVerification (claims : List (Text × PlannedClaim)) (contracts : List Contract)
    (clauses : List Clause) : Except Failure Unit :=
  claims.forM (validateClaim claims contracts clauses)

/-! ## What an accepted plan has -/

theorem forM_ok {α : Type} {f : α → Except Failure Unit} {l : List α} (h : l.forM f = .ok ()) :
    ∀ a ∈ l, f a = .ok () := by
  induction l with
  | nil => exact nofun
  | cons a rest ih =>
      have hcons : (f a >>= fun _ => rest.forM f) = .ok () := h
      obtain ⟨u, ha, hrest⟩ := bind_eq_ok_iff.mp hcons
      exact List.forall_mem_cons.mpr ⟨ha, ih hrest⟩

section Accepted

variable {claims : List (Text × PlannedClaim)} {contracts : List Contract} {clauses : List Clause}
  {id criterion : Text} {claim : PlannedClaim} {intent : Intent} {method : Method}

theorem plannedMethods_stated {contract : Contract} (h : contractFor contracts criterion = some contract) :
    plannedMethods claims contracts (some criterion) = contract.primary.map Slot.method := by
  unfold plannedMethods
  rw [Option.bind_some, h]

/-- Without a contract only tests are planned. -/
theorem plannedMethods_default (h : contractFor contracts criterion = none)
    (hmethod : method ∈ plannedMethods claims contracts (some criterion)) : method = .test := by
  unfold plannedMethods at hmethod
  rw [Option.bind_some, h] at hmethod
  dsimp only at hmethod
  split at hmethod
  · exact List.mem_singleton.mp hmethod
  · cases hmethod

/-- What the plan has for a claim whose intent was approved. -/
theorem validateClaim_ok (h : validateClaim claims contracts clauses (id, claim) = .ok ())
    (hintent : intentFor clauses id = some intent) :
    (∀ method ∈ intent.methods, method ∈ plannedMethods claims contracts intent.criterionId
        ∨ (method = .test ∧ intent.criterionId.bind (contractFor contracts) = none))
      ∧ ∀ contract, intent.criterionId.bind (contractFor contracts) = some contract →
        contract.combination = .any → ∀ slot ∈ contract.primary, ∀ method ∈ intent.methods,
          slot.method = method := by
  obtain ⟨_, -, h⟩ := bind_eq_ok_iff.mp h
  rw [hintent] at h
  obtain ⟨_, -, h⟩ := bind_eq_ok_iff.mp h
  obtain ⟨_, hmethods, h⟩ := bind_eq_ok_iff.mp h
  rw [failIf_eq_ok_iff, not_and] at h
  refine ⟨fun method hmethod => ?_, fun contract hcontract hany slot hslot method hmethod => ?_⟩
  · have hone := forM_ok hmethods method hmethod
    dsimp only at hone
    split at hone
    · next hdefault => exact .inr ⟨hdefault.1, hdefault.2.1⟩
    · rw [failIf_eq_ok_iff, not_not] at hone
      exact .inl hone
  · have hweakens := h (by rw [hcontract]; exact decide_eq_true hany)
    unfold plannedMethods Intent.weakens at hweakens
    rw [hcontract] at hweakens
    simp only [List.any_eq_true, List.mem_map, decide_eq_true_eq, not_exists, not_and] at hweakens
    by_contra hne
    exact hweakens slot.method ⟨slot, hslot, rfl⟩ method hmethod hne

variable {instances : TestWitness → Text → Bool} {entries : List Entry} {options : Options}
  {effective : Effective}

theorem observedStatus_of_met {id : Text} {contract : Contract}
    (h : (contractResult instances id contract entries options).status = .met) :
    observedStatus instances id contract entries options = .met := by
  rw [contractResult_status] at h
  split at h
  · cases h
  · exact h

/-- **A criterion that is met is met by every approved method** of its planned clauses. -/
theorem met_of_validated (hvalid : validatePlannedVerification claims contracts clauses = .ok ())
    (hplanned : (id, claim) ∈ claims) (hintent : intentFor clauses id = some intent)
    (hcriterion : intent.criterionId = some criterion)
    (heffective : effectiveContract criterion contracts (mapGet claims criterion) = some effective)
    (hmet : (contractResult instances criterion effective.contract entries options).status = .met)
    (hmethod : method ∈ intent.methods) :
    ∃ slot ∈ effective.contract.primary, slot.method = method
      ∧ SlotMet instances criterion effective.contract entries options slot := by
  obtain ⟨hmethods, hany⟩ := validateClaim_ok (forM_ok hvalid _ hplanned) hintent
  have hcombines := observedStatus_met_iff.mp (observedStatus_of_met hmet)
  rw [hcriterion] at hmethods hany
  rw [Option.bind_some] at hany
  unfold effectiveContract at heffective
  unfold Contract.Combines at hcombines
  cases hcontract : contractFor contracts criterion with
  | some contract =>
      rw [hcontract] at heffective hany
      cases heffective
      obtain hmem | ⟨-, hnone⟩ := hmethods method hmethod
      · rw [plannedMethods_stated hcontract] at hmem
        obtain ⟨slot, hslot, hslotMethod⟩ := List.mem_map.mp hmem
        cases hcombination : contract.combination with
        | all =>
            rw [hcombination] at hcombines
            exact ⟨slot, hslot, hslotMethod, hcombines slot hslot⟩
        | any =>
            -- one slot is met, and it is of every approved method
            rw [hcombination] at hcombines
            obtain ⟨met, hmetMem, hmetSlot⟩ := hcombines
            exact ⟨met, hmetMem, hany contract rfl hcombination met hmetMem method hmethod, hmetSlot⟩
      · rw [Option.bind_some, hcontract] at hnone
        cases hnone
  | none =>
      have htest : method = .test :=
        (hmethods method hmethod).elim (plannedMethods_default hcontract) And.left
      rw [hcontract] at heffective
      dsimp only at heffective
      split at heffective
      · cases heffective
      · cases heffective
        exact ⟨_, List.mem_singleton_self _, htest.symm, hcombines _ (List.mem_singleton_self _)⟩

end Accepted

/-! ## Over a Story -/

section Story

variable {sha : PlannedClaim → Text} {toUpperCase : Text → Text} {isUuid isDatetime : Text → Bool}
  {itemRoot : Text} {clauses : List Clause} {s : Story}

/-- A plan that the approved intent accepts. -/
def Intended (clauses : List Clause) (plan : Plan) : Prop :=
  validatePlannedVerification plan.claims plan.contracts clauses = .ok ()

/-- Plans are approved, and their rows corrected, with the validation of intent. -/
def ByIntent (clauses : List Clause) : Action → Prop
  | .approve _ record _ => Intended clauses record
  | .rows _ _ validate _ =>
      validate = fun plan => validatePlannedVerification plan.claims plan.contracts clauses
  | .evidence .. => False

theorem validate_of_prepare {normalizeRow : Text → RawRow → Except Failure PlannedClaim}
    {validate : Plan → Except Failure Unit} {owner plan : Plan} {request : RowRequest}
    {operations : List Operation}
    (h : prepareRowCorrection sha toUpperCase normalizeRow validate owner request = .ok (operations, plan)) :
    validate plan = .ok () := by
  obtain ⟨_, -, h⟩ := bind_eq_ok_iff.mp h
  obtain ⟨_, -, h⟩ := bind_eq_ok_iff.mp h
  obtain ⟨⟨recorded, last⟩, -, h⟩ := bind_eq_ok_iff.mp h
  obtain ⟨_, -, h⟩ := bind_eq_ok_iff.mp h
  obtain ⟨_, hvalid, h⟩ := bind_eq_ok_iff.mp h
  obtain ⟨_, -, h⟩ := bind_eq_ok_iff.mp h
  cases h
  exact hvalid

/-- The last validated plans are accepted by the approved intent. -/
def AllIntended (clauses : List Clause) (s : Story) : Prop :=
  ∀ phase owned, mapGet s.plans phase = some owned → Intended clauses owned.validated

theorem allIntended_set {s : Story} (h : AllIntended clauses s) {workflow : Workflow} {phase : Text}
    {owned : Owned} (howned : Intended clauses owned.validated) :
    AllIntended clauses ⟨workflow, mapSet s.plans phase owned⟩ := by
  intro phase' owned' hget
  by_cases heq : phase' = phase
  · subst heq
    obtain rfl := Option.some_inj.mp ((mapGet_mapSet_self _ _ _).symm.trans hget)
    exact howned
  · exact h phase' owned' ((mapGet_mapSet_of_ne heq).symm.trans hget)

theorem allIntended_attempt (h : Inv sha toUpperCase isUuid isDatetime itemRoot s)
    (hintended : AllIntended clauses s) {a : Action} (ha : ByIntent clauses a) :
    AllIntended clauses (attempt sha toUpperCase isUuid isDatetime itemRoot s a).1 := by
  cases a with
  | approve phase record mapSha256 =>
      by_cases happrovable : approvable toUpperCase s phase record = true
      · rw [attempt, if_pos happrovable]
        exact allIntended_set hintended ha
      · rw [attempt, if_neg happrovable]
        exact hintended
  | rows phase normalizeRow validate request =>
      rcases h.rows_cases phase normalizeRow validate request with ⟨e, heq⟩
        | ⟨owned, operations, plan, howned, hprepare, ⟨-, e, heq⟩ | ⟨-, heq⟩⟩
      · rw [heq]
        exact hintended
      · rw [heq]
        exact hintended
      · rw [heq]
        refine allIntended_set hintended ?_
        have hvalid := validate_of_prepare hprepare
        rw [show validate = _ from ha] at hvalid
        exact hvalid
  | evidence phase validate request => exact absurd ha not_false

variable {instances : TestWitness → Text → Bool} {entries : List Entry} {options : Options}
  {effective : Effective}

/-- **Approved intent is never weakened**: after every run of approvals and corrections of
rows, a criterion that is met under the plan that its readers are shown is met by a
primary slot of every method approved for one of its planned clauses. -/
theorem met_by_intent (hupper : ∀ t, isAcId t = true → toUpperCase t = t) {start : Story}
    (hstart : Fresh start) {past : List (Story × Action)}
    (hrun : GuardedRun (storyStep sha toUpperCase isUuid isDatetime itemRoot) start
      (fun s a => Admitted toUpperCase s a ∧ ByIntent clauses a) past s)
    {phase : Text} {owned : Owned} (howned : mapGet s.plans phase = some owned) {root : Option Text}
    (hroot : root ∈ [none, some (evidenceDirectory itemRoot)]) {plan : Plan}
    (hshown : applyPlanCorrections sha toUpperCase isUuid isDatetime s.workflow root owned.record = .ok plan)
    {id criterion : Text} {claim : PlannedClaim} {intent : Intent} {method : Method}
    (hplanned : (id, claim) ∈ plan.claims) (hintent : intentFor clauses id = some intent)
    (hcriterion : intent.criterionId = some criterion)
    (heffective : effectiveContract criterion plan.contracts (plan.claim criterion) = some effective)
    (hmet : (contractResult instances criterion effective.contract entries options).status = .met)
    (hmethod : method ∈ intent.methods) :
    ∃ slot ∈ effective.contract.primary, slot.method = method
      ∧ SlotMet instances criterion effective.contract entries options slot := by
  have hinv : Inv sha toUpperCase isUuid isDatetime itemRoot s ∧ AllIntended clauses s := by
    refine hrun.run.invariant
      (fun _ s => Inv sha toUpperCase isUuid isDatetime itemRoot s ∧ AllIntended clauses s)
      (fun s a => Admitted toUpperCase s a ∧ ByIntent clauses a) hrun.guarded ⟨hstart.inv, ?_⟩ ?_
    · intro phase owned howned
      rw [hstart.plans] at howned
      cases howned
    · intro past s a s' h ha hstep
      obtain rfl := Except.ok.inj hstep
      exact ⟨(h.1.attempted hupper ha.1).1, allIntended_attempt h.1 h.2 ha.2⟩
  have hok := hinv.1.owned phase owned howned
  have hvalidated : plan = owned.validated := by
    unfold applyPlanCorrections at hshown
    rw [hok.amendment, if_neg Bool.false_ne_true, hok.replay root hroot] at hshown
    exact (Except.ok.inj hshown).symm
  subst hvalidated
  exact met_of_validated (hinv.2 phase owned howned) hplanned hintent hcriterion heffective hmet hmethod

end Story

/-! ### A criterion with a test -/

section Sample

def sampleClauses : List Clause := [⟨js "A:AC-001", some ⟨[.test], some (js "A:AC-001")⟩⟩]

def sampleIntended : Story :=
  (attempt sampleSha id (fun _ => true) (fun _ => true) (js "items")
    (attempt sampleSha id (fun _ => true) (fun _ => true) (js "items") sampleStart
      (.approve (js "plan") samplePlan sampleMap)).1
    (.rows (js "plan") (fun _ _ => .ok sampleRow)
      (fun plan => validatePlannedVerification plan.claims plan.contracts sampleClauses)
      (sampleRequest none))).1

/-- The row of the sample plan with the added test. -/
def addedRow : PlannedClaim := { sampleRow with tests := [js "a.test.mjs", js "b.test.mjs"] }

theorem met_by_intent_sample :
    ∃ slot ∈ (defaultContract (js "A:AC-001") addedRow.tests).primary, slot.method = .test
      ∧ SlotMet (fun _ _ => false) (js "A:AC-001") (defaultContract (js "A:AC-001") addedRow.tests)
        [runOf (js "a.test.mjs") true] plainOptions slot := by
  have happrove : Admitted id sampleStart (.approve (js "plan") samplePlan sampleMap) := trivial
  have hintended : validatePlannedVerification samplePlan.claims samplePlan.contracts sampleClauses
      = .ok () := by decide +kernel
  have hadmits : Admitted id sampleApproved (.rows (js "plan") (fun _ _ => .ok sampleRow)
      (fun plan => validatePlannedVerification plan.claims plan.contracts sampleClauses)
      (sampleRequest none)) := ⟨by decide +kernel, by decide +kernel⟩
  exact @met_by_intent sampleSha id (fun _ => true) (fun _ => true) (js "items") sampleClauses
    sampleIntended (fun _ _ => false) [runOf (js "a.test.mjs") true] plainOptions
    ⟨defaultContract (js "A:AC-001") addedRow.tests, false⟩ (fun _ _ => rfl) sampleStart
    sampleStart_fresh _ ((GuardedRun.empty.next rfl ⟨happrove, hintended⟩).next rfl ⟨hadmits, rfl⟩)
    (js "plan") ⟨samplePlan, { samplePlan with claims := [(js "A:AC-001", addedRow)] }⟩ (by decide +kernel)
    none List.mem_cons_self { samplePlan with claims := [(js "A:AC-001", addedRow)] } (by decide +kernel)
    (js "A:AC-001") (js "A:AC-001") addedRow ⟨[.test], some (js "A:AC-001")⟩ .test (by decide +kernel)
    (by decide +kernel) rfl (by decide +kernel) (by decide +kernel) (by decide +kernel)

/-- **Tests other than the planned ones** meet a criterion that plans `a.test.mjs`, and a
clause that the plan has no row for is met without any of its approved methods. -/
theorem intent_by_other_tests :
    (validatePlannedVerification samplePlan.claims [] sampleClauses = .ok ()
      ∧ effectiveContract (js "A:AC-001") [] (samplePlan.claim (js "A:AC-001"))
        = some ⟨defaultContract (js "A:AC-001") sampleRow.tests, false⟩
      ∧ (contractResult (fun _ _ => false) (js "A:AC-001")
          (defaultContract (js "A:AC-001") sampleRow.tests) [runOf (js "c.test.mjs") true]
          plainOptions).status = .met
      ∧ ∀ slot ∈ (defaultContract (js "A:AC-001") sampleRow.tests).primary,
        ∀ w ∈ slotWitnesses (fun _ _ => false) (defaultContract (js "A:AC-001") sampleRow.tests)
          [runOf (js "c.test.mjs") true] plainOptions slot, w.witness.testSource ∉ sampleRow.tests)
    ∧ validatePlannedVerification [] [] [⟨js "A:AC-001", some ⟨[.visual], some (js "A:AC-001")⟩⟩] = .ok ()
    ∧ effectiveContract (js "A:AC-001") [] none = some ⟨defaultContract (js "A:AC-001") [], false⟩
    ∧ (contractResult (fun _ _ => false) (js "A:AC-001") (defaultContract (js "A:AC-001") [])
        [runOf (js "c.test.mjs") true] plainOptions).status = .met
    ∧ ∀ slot ∈ (defaultContract (js "A:AC-001") []).primary, slot.method ≠ .visual := by
  decide +kernel

end Sample

end Verification

end SingularityFlow
