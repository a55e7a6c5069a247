/-
# Corrections replay exactly

A Story records corrections against the plans that its readers show, and every later
reader replays them from the workflow's file.  `corrections_replay` says that after any run of
approvals, corrections of rows and corrections of evidence, recorded or refused, a
reader of an approved plan gets exactly the plan that the last recording validated;
that a correction leaves the readers of every other plan and generation alone; and
that a refused one leaves the workflow as it was.

Two things are asked of the decisions besides what their callers see to.  An evidence
correction is recorded without a look at the plan's other contracts, of which every
reader takes a thousand at most (`projectEvidence_full`).  And a correction of rows that
only the last check refuses leaves an empty list in a workflow that had none
(`refused_leaves_list`).
-/
import SingularityFlow.Verification.Corrections
import SingularityFlow.Lib.Run

namespace SingularityFlow

open Ecma

namespace Verification

/-! ## Operations replay -/

section Operations

variable {sha : PlannedClaim → Text} {toUpperCase : Text → Text}

/-- Only the refusal of an operation depends on who applies it. -/
theorem applyOperation_refuse {refuse refuse' : Text → Failure} {plan plan' : Plan} {operation : Operation}
    (h : applyOperation sha toUpperCase refuse plan operation = .ok plan') :
    applyOperation sha toUpperCase refuse' plan operation = .ok plan' := by
  have hrow : ∀ {id previous claim}, previousRow sha refuse plan id previous = .ok claim →
      previousRow sha refuse' plan id previous = .ok claim := by
    intro id previous claim h
    unfold previousRow at h ⊢
    split at h
    · cases h
    · split at h
      · next heq =>
          rw [if_pos heq]
          exact h
      · cases h
  have hfail : ∀ {p : Prop} [Decidable p] {message message' : Text} {u : Unit},
      failIf p (refuse message) = .ok u → failIf p (refuse' message') = .ok u :=
    fun h => failIf_eq_ok_iff.mpr (failIf_eq_ok_iff.mp h)
  have hlocation : ∀ {id claim removed added},
      applyLocation refuse plan id claim removed added = .ok plan' →
      applyLocation refuse' plan id claim removed added = .ok plan' := by
    intro id claim removed added h
    obtain ⟨_, hremoved, h⟩ := bind_eq_ok_iff.mp h
    obtain ⟨_, hadded, h⟩ := bind_eq_ok_iff.mp h
    obtain ⟨_, hkept, h⟩ := bind_eq_ok_iff.mp h
    exact bind_eq_ok_iff.mpr ⟨_, hfail hremoved, bind_eq_ok_iff.mpr ⟨_, hfail hadded,
      bind_eq_ok_iff.mpr ⟨_, hfail hkept, h⟩⟩⟩
  cases operation with
  | addRow id claim =>
      obtain ⟨_, hnew, h⟩ := bind_eq_ok_iff.mp h
      exact bind_eq_ok_iff.mpr ⟨_, hfail hnew, h⟩
  | addTest id test previous =>
      obtain ⟨claim, hclaim, h⟩ := bind_eq_ok_iff.mp h
      obtain ⟨_, hdisposition, h⟩ := bind_eq_ok_iff.mp h
      obtain ⟨_, htests, h⟩ := bind_eq_ok_iff.mp h
      exact bind_eq_ok_iff.mpr ⟨claim, hrow hclaim, bind_eq_ok_iff.mpr ⟨_, hfail hdisposition,
        bind_eq_ok_iff.mpr ⟨_, hfail htests, h⟩⟩⟩
  | removeLocation id path previous =>
      obtain ⟨claim, hclaim, h⟩ := bind_eq_ok_iff.mp h
      exact bind_eq_ok_iff.mpr ⟨claim, hrow hclaim, hlocation h⟩
  | replaceLocation id old new previous =>
      obtain ⟨claim, hclaim, h⟩ := bind_eq_ok_iff.mp h
      exact bind_eq_ok_iff.mpr ⟨claim, hrow hclaim, hlocation h⟩

/-- **What was recorded replays**: the recorded operations lead a reader to the plan
that they led the recording to. -/
theorem applyOperations_of_record {normalizeRow : Text → RawRow → Except Failure PlannedClaim}
    {active : List Text} {refuse : Text → Failure} {requested : List RequestedOperation}
    {plan last : Plan} {operations : List Operation}
    (h : recordOperations sha toUpperCase normalizeRow active plan requested = .ok (operations, last)) :
    applyOperations sha toUpperCase refuse plan operations = .ok last := by
  induction requested generalizing plan operations with
  | nil =>
      cases h
      rfl
  | cons first rest ih =>
      obtain ⟨_, -, h⟩ := bind_eq_ok_iff.mp h
      obtain ⟨operation, -, h⟩ := bind_eq_ok_iff.mp h
      obtain ⟨next, hnext, h⟩ := bind_eq_ok_iff.mp h
      obtain ⟨⟨others, last'⟩, hrest, h⟩ := bind_eq_ok_iff.mp h
      cases h
      exact bind_eq_ok_iff.mpr ⟨next, applyOperation_refuse hnext, ih hrest⟩

end Operations

/-! ## What a correction keeps -/

/-- The plan of the same generation, corrected: its contracts are read back as they are. -/
structure Corrects (toUpperCase : Text → Text) (before after : Plan) : Prop where
  phase : after.phase = before.phase
  generation : after.generation = before.generation
  planned : after.planned = before.planned
  amendment : after.amendment = before.amendment
  contracts : normalizeVerificationContracts toUpperCase before.contracts = .ok before.contracts →
    normalizeVerificationContracts toUpperCase after.contracts = .ok after.contracts

section Corrects

variable {sha : PlannedClaim → Text} {toUpperCase : Text → Text} {isUuid isDatetime : Text → Bool}
  {plan plan' : Plan}

theorem Corrects.refl : Corrects toUpperCase plan plan := ⟨rfl, rfl, rfl, rfl, id⟩

theorem Corrects.trans {plan'' : Plan} (h : Corrects toUpperCase plan plan')
    (h' : Corrects toUpperCase plan' plan'') : Corrects toUpperCase plan plan'' :=
  ⟨h'.phase.trans h.phase, h'.generation.trans h.generation, h'.planned.trans h.planned,
    h'.amendment.trans h.amendment, h'.contracts ∘ h.contracts⟩

theorem corrects_setClaim {id : Text} {claim : PlannedClaim} :
    Corrects toUpperCase plan (plan.setClaim id claim) := ⟨rfl, rfl, rfl, rfl, fun h => h⟩

theorem corrects_joinContract (hupper : ∀ t, isAcId t = true → toUpperCase t = t) {id test : Text}
    (h : joinContract toUpperCase plan id test = .ok plan') : Corrects toUpperCase plan plan' := by
  unfold joinContract at h
  split at h
  · cases h
    exact .refl
  · obtain ⟨contracts, hcontracts, h⟩ := bind_eq_ok_iff.mp h
    cases h
    exact ⟨rfl, rfl, rfl, rfl, fun _ => normalize_normalized hupper hcontracts⟩

theorem corrects_applyLocation {refuse : Text → Failure} {id : Text} {claim : PlannedClaim}
    {removed : Text} {added : Option Text}
    (h : applyLocation refuse plan id claim removed added = .ok plan') :
    Corrects toUpperCase plan plan' := by
  obtain ⟨_, -, h⟩ := bind_eq_ok_iff.mp h
  obtain ⟨_, -, h⟩ := bind_eq_ok_iff.mp h
  obtain ⟨_, -, h⟩ := bind_eq_ok_iff.mp h
  cases h
  exact corrects_setClaim

theorem corrects_applyOperation (hupper : ∀ t, isAcId t = true → toUpperCase t = t)
    {refuse : Text → Failure} {operation : Operation}
    (h : applyOperation sha toUpperCase refuse plan operation = .ok plan') :
    Corrects toUpperCase plan plan' := by
  cases operation with
  | addRow id claim =>
      obtain ⟨_, -, h⟩ := bind_eq_ok_iff.mp h
      cases h
      exact corrects_setClaim
  | addTest id test previous =>
      obtain ⟨claim, -, h⟩ := bind_eq_ok_iff.mp h
      obtain ⟨_, -, h⟩ := bind_eq_ok_iff.mp h
      obtain ⟨_, -, h⟩ := bind_eq_ok_iff.mp h
      exact corrects_setClaim.trans (corrects_joinContract hupper h)
  | removeLocation id path previous =>
      obtain ⟨claim, -, h⟩ := bind_eq_ok_iff.mp h
      exact corrects_applyLocation h
  | replaceLocation id old new previous =>
      obtain ⟨claim, -, h⟩ := bind_eq_ok_iff.mp h
      exact corrects_applyLocation h

theorem corrects_applyOperations (hupper : ∀ t, isAcId t = true → toUpperCase t = t)
    {refuse : Text → Failure} {operations : List Operation}
    (h : applyOperations sha toUpperCase refuse plan operations = .ok plan') :
    Corrects toUpperCase plan plan' := by
  induction operations generalizing plan with
  | nil =>
      cases h
      exact .refl
  | cons operation rest ih =>
      obtain ⟨next, hnext, h⟩ := bind_eq_ok_iff.mp h
      exact (corrects_applyOperation hupper hnext).trans (ih h)

theorem corrects_projectEvidence (hupper : ∀ t, isAcId t = true → toUpperCase t = t) {id path : Text}
    {claim : PlannedClaim} {method : EvidenceMethod}
    (h : projectEvidence toUpperCase plan id claim path method = .ok plan') :
    Corrects toUpperCase plan plan' := by
  obtain ⟨⟨corrected, contract⟩, -, h⟩ := bind_eq_ok_iff.mp h
  obtain ⟨contracts, hcontracts, h⟩ := bind_eq_ok_iff.mp h
  cases h
  exact ⟨rfl, rfl, rfl, rfl, fun _ => normalize_normalized hupper hcontracts⟩

variable {workflow : Workflow} {root : Option Text}

theorem corrects_applyAmendment (hupper : ∀ t, isAcId t = true → toUpperCase t = t) {value : Value}
    (h : applyAmendment sha toUpperCase isUuid isDatetime workflow root plan value = .ok plan') :
    Corrects toUpperCase plan plan' := by
  unfold applyAmendment at h
  split at h
  · unfold applyEvidence at h
    split at h
    · cases h
    · split at h
      · cases h
      · split at h
        · cases h
          exact .refl
        · split at h
          · cases h
          · split at h
            · cases h
            · split at h
              · cases h
              · exact corrects_projectEvidence hupper h
  · split at h
    · unfold applyRowCorrection at h
      split at h
      · cases h
      · split at h
        · cases h
        · split at h
          · cases h
            exact .refl
          · split at h
            · cases h
            · exact corrects_applyOperations hupper h
    · cases h
      exact .refl

theorem corrects_applyAmendments (hupper : ∀ t, isAcId t = true → toUpperCase t = t)
    {amendments : List Value}
    (h : applyAmendments sha toUpperCase isUuid isDatetime workflow root plan amendments = .ok plan') :
    Corrects toUpperCase plan plan' := by
  induction amendments generalizing plan with
  | nil =>
      cases h
      exact .refl
  | cons value rest ih =>
      obtain ⟨next, hnext, h⟩ := bind_eq_ok_iff.mp h
      exact (corrects_applyAmendment hupper hnext).trans (ih h)

theorem applyAmendments_append {before after : List Value} :
    applyAmendments sha toUpperCase isUuid isDatetime workflow root plan (before ++ after) =
      applyAmendments sha toUpperCase isUuid isDatetime workflow root plan before >>= fun next =>
        applyAmendments sha toUpperCase isUuid isDatetime workflow root next after := by
  induction before generalizing plan with
  | nil => rfl
  | cons value rest ih =>
      rw [List.cons_append, applyAmendments, applyAmendments]
      cases applyAmendment sha toUpperCase isUuid isDatetime workflow root plan value with
      | error e => rfl
      | ok next => exact ih

/-- A reader looks at the authorities of all phases, and at the map of its own. -/
theorem applyAmendments_congr {workflow' : Workflow} (hupper : ∀ t, isAcId t = true → toUpperCase t = t)
    (hauthorities : ∀ phase, evidenceOwnerAuthorities workflow' phase
      = evidenceOwnerAuthorities workflow phase)
    (hpointer : workflow'.pointer plan.phase = workflow.pointer plan.phase) {amendments : List Value} :
    applyAmendments sha toUpperCase isUuid isDatetime workflow' root plan amendments
      = applyAmendments sha toUpperCase isUuid isDatetime workflow root plan amendments := by
  induction amendments generalizing plan with
  | nil => rfl
  | cons value rest ih =>
      have hone : applyAmendment sha toUpperCase isUuid isDatetime workflow' root plan value
          = applyAmendment sha toUpperCase isUuid isDatetime workflow root plan value := by
        unfold applyAmendment applyEvidence applyRowCorrection
        simp only [hauthorities, hpointer]
      rw [applyAmendments, applyAmendments, hone]
      cases hnext : applyAmendment sha toUpperCase isUuid isDatetime workflow root plan value with
      | error e => rfl
      | ok next =>
          refine ih ?_
          rw [(corrects_applyAmendment hupper hnext).phase]
          exact hpointer

end Corrects

/-! ## Recorded corrections -/

/-- One correction is not later than another generation. -/
def NotLater (x y : Number) : Prop := ∃ m n : Int, x.integer? = some m ∧ y.integer? = some n ∧ m ≤ n

/-- `later` comes after `x`. -/
def laterGeneration (x later : Number) : Bool :=
  match x.integer?, later.integer? with
  | some m, some n => m < n
  | _, _ => false

theorem integer?_unsignedZero (x : Number) : x.unsignedZero.integer? = x.integer? := by
  cases x with
  | nan => rfl
  | infinity negative => rfl
  | finite negative m e h =>
      by_cases hm : m = 0
      · subst hm
        simp [Number.unsignedZero, Number.integer?]
      · have hsign : (negative && m != 0) = negative := by simp [hm]
        rw [Number.unsignedZero, Number.integer?, Number.integer?, hsign]

theorem integer?_of_same {x y : Number} (h : x.same y = true) : x.integer? = y.integer? := by
  simp only [Number.same, Bool.and_eq_true, decide_eq_true_eq] at h
  rw [← integer?_unsignedZero x, h.2, integer?_unsignedZero]

theorem same_of_positiveInt {x : Number} (h : isPositiveInt x = true) : x.same x = true := by
  cases x with
  | nan => cases h
  | infinity negative => cases h
  | finite negative m e hc => simp [Number.same]

/-- A correction of a generation is not one of a later generation. -/
theorem NotLater.not_same {x y later : Number} (h : NotLater x y) (hlater : laterGeneration y later = true) :
    x.same later = false := by
  obtain ⟨m, n, hm, hn, hle⟩ := h
  rw [Bool.eq_false_iff]
  intro hsame
  have heq := integer?_of_same hsame
  unfold laterGeneration at hlater
  rw [hn, ← heq, hm] at hlater
  exact absurd (of_decide_eq_true hlater) (by omega)

theorem NotLater.trans {x y later : Number} (h : NotLater x y) (hlater : laterGeneration y later = true) :
    NotLater x later := by
  obtain ⟨m, n, hm, hn, hle⟩ := h
  unfold laterGeneration at hlater
  rw [hn] at hlater
  cases hk : later.integer? with
  | none =>
      rw [hk] at hlater
      cases hlater
  | some k =>
      rw [hk] at hlater
      exact ⟨m, k, hm, hk, by have := of_decide_eq_true hlater; omega⟩

theorem NotLater.refl {x : Number} (h : isPositiveInt x = true) : NotLater x x := by
  unfold isPositiveInt at h
  cases hx : x.integer? with
  | none =>
      rw [hx] at h
      cases h
  | some n => exact ⟨n, n, hx, hx, le_refl n⟩

section Recorded

variable (isUuid isDatetime : Text → Bool) (evidenceDirectory : Text)

/-- A correction as a recording leaves it in the list: well formed, of an owner, and
under the owner's authority. -/
def Recorded (workflow : Workflow) (ownerPhase : Text) (ownerGeneration : Number) (value : Value) : Prop :=
  (∃ c : RowCorrection, value = c.toValue ∧ c.wellFormed isUuid isDatetime = true
      ∧ trim c.reason = c.reason ∧ c.ownerPhase = ownerPhase ∧ c.ownerGeneration = ownerGeneration
      ∧ c.authorityGroup ∈ evidenceOwnerAuthorities workflow ownerPhase)
    ∨ ∃ a : EvidenceAmendment, value = a.toValue ∧ a.wellFormed isDatetime = true
      ∧ trim a.reason = a.reason ∧ a.ownerPhase = ownerPhase ∧ a.ownerGeneration = ownerGeneration
      ∧ a.authorityGroup ∈ evidenceOwnerAuthorities workflow ownerPhase
      ∧ (evidenceDirectory ++ js "/").isPrefixOf a.path = true
      ∧ a.reviewedSize.isFinite = true ∧ a.reviewedSize.unsignedZero = a.reviewedSize

/-- Another decision about a plan, which its readers pass over. -/
def PassedOver (value : Value) : Prop :=
  kindOf value ≠ some evidenceKind ∧ kindOf value ≠ some rowKind

variable {isUuid isDatetime evidenceDirectory} {workflow : Workflow} {ownerPhase : Text}
  {ownerGeneration : Number} {value : Value}

theorem Recorded.kept (h : Recorded isUuid isDatetime evidenceDirectory workflow ownerPhase
    ownerGeneration value) : Kept value := by
  rcases h with ⟨c, rfl, hc, -⟩ | ⟨a, rfl, ha, -, -, -, -, -, hsize⟩
  · exact RowCorrection.kept hc
  · exact EvidenceAmendment.kept ha hsize

theorem kindOf_row (c : RowCorrection) : kindOf c.toValue = some rowKind := rfl

theorem kindOf_evidence (a : EvidenceAmendment) : kindOf a.toValue = some evidenceKind := rfl

theorem rowKind_ne_evidenceKind : rowKind ≠ evidenceKind := by decide

variable {sha : PlannedClaim → Text} {toUpperCase : Text → Text} {plan : Plan} {root : Option Text}

theorem applyAmendment_row {c : RowCorrection} (h : c.wellFormed isUuid isDatetime = true)
    (hreason : trim c.reason = c.reason)
    (hauthority : c.authorityGroup ∈ evidenceOwnerAuthorities workflow c.ownerPhase) :
    applyAmendment sha toUpperCase isUuid isDatetime workflow root plan c.toValue =
      if c.ownerPhase ≠ plan.phase ∨ !c.ownerGeneration.same plan.generation then .ok plan
      else if workflow.pointer plan.phase ≠ some c.ownerMapSha256 then
        .error (rowInvalid (js "Plan correction " ++ c.id ++ js " no longer binds its approved plan."))
      else applyOperations sha toUpperCase
        (fun message => rowInvalid (js "Plan correction " ++ c.id ++ js ": " ++ message)) plan
        c.operations := by
  unfold applyAmendment
  rw [kindOf_row, if_neg fun heq => rowKind_ne_evidenceKind (Option.some_inj.mp heq), if_pos rfl]
  unfold applyRowCorrection
  rw [RowCorrection.ofValue_toValue isUuid isDatetime h hreason]
  exact if_neg (not_not.mpr hauthority)

theorem applyAmendment_evidence {a : EvidenceAmendment} (h : a.wellFormed isDatetime = true)
    (hreason : trim a.reason = a.reason)
    (hauthority : a.authorityGroup ∈ evidenceOwnerAuthorities workflow a.ownerPhase) :
    applyAmendment sha toUpperCase isUuid isDatetime workflow root plan a.toValue =
      if a.ownerPhase ≠ plan.phase ∨ !a.ownerGeneration.same plan.generation then .ok plan
      else if workflow.pointer plan.phase ≠ some a.ownerMapSha256 then
        .error (evidenceInvalid (js "Evidence amendment no longer binds its approved owner map."))
      else
        match (plan.claim a.clauseId).filter fun claim => sha claim = a.previousClaimSha256 with
        | none => .error (evidenceInvalid
            (js "Evidence amendment does not replace the exact reviewed clause row."))
        | some claim =>
            if root.any fun root => !(root ++ js "/").isPrefixOf a.path then
              .error (evidenceInvalid (js "Evidence amendment points outside this Story."))
            else projectEvidence toUpperCase plan a.clauseId claim a.path a.method := by
  unfold applyAmendment
  rw [kindOf_evidence, if_pos rfl]
  unfold applyEvidence
  rw [EvidenceAmendment.ofValue_toValue isDatetime h hreason]
  exact if_neg (not_not.mpr hauthority)

/-- **A correction leaves the readers of other plans and generations alone.** -/
theorem applyAmendment_other
    (h : Recorded isUuid isDatetime evidenceDirectory workflow ownerPhase ownerGeneration value)
    (hother : ¬ (ownerPhase = plan.phase ∧ ownerGeneration.same plan.generation = true)) :
    applyAmendment sha toUpperCase isUuid isDatetime workflow root plan value = .ok plan := by
  have hskip : ownerPhase ≠ plan.phase ∨ (!ownerGeneration.same plan.generation) = true := by
    by_cases hphase : ownerPhase = plan.phase
    · right
      rw [Bool.not_eq_true']
      exact Bool.eq_false_iff.mpr fun hsame => hother ⟨hphase, hsame⟩
    · exact .inl hphase
  rcases h with ⟨c, rfl, hc, hreason, rfl, rfl, hauthority⟩ | ⟨a, rfl, ha, hreason, rfl, rfl, hauthority, -⟩
  · rw [applyAmendment_row hc hreason hauthority, if_pos hskip]
  · rw [applyAmendment_evidence ha hreason hauthority, if_pos hskip]

theorem applyAmendment_passedOver (h : PassedOver value) :
    applyAmendment sha toUpperCase isUuid isDatetime workflow root plan value = .ok plan := by
  unfold applyAmendment
  rw [if_neg h.1, if_neg h.2]

end Recorded

/-! ## The form of a recorded correction -/

/-- The fields of a decision that the callers pass on are well formed. -/
def RowRequest.wellFormed (toUpperCase : Text → Text) (isUuid isDatetime : Text → Bool)
    (request : RowRequest) (owner : Plan) : Bool :=
  owner.phase ≠ [] && isPositiveInt owner.generation && isSha request.ownerMapSha256
    && request.actor ≠ [] && request.authorityGroup ≠ [] && isUuid request.authorizationId
    && isDatetime request.date && request.upstreamIssue.all (isSequenceId (js "UPI-"))
    && request.operations.all fun operation => isClauseId (toUpperCase operation.clauseId)

section Form

variable {sha : PlannedClaim → Text} {toUpperCase : Text → Text} {isUuid isDatetime : Text → Bool}
  {normalizeRow : Text → RawRow → Except Failure PlannedClaim}

theorem isPortablePath_of_exactPath {value label path : Text} (h : exactPath value label = .ok path) :
    isPortablePath path = true := by
  unfold exactPath at h
  dsimp only at h
  split at h
  · cases h
  · next hpath =>
      cases h
      simp only [Bool.or_eq_true, not_or, Bool.not_eq_true', Bool.not_eq_false] at hpath
      exact hpath.1.1

theorem wellFormed_recordedOperation (hsha : ∀ claim, isSha (sha claim) = true) {plan : Plan}
    {requested : RequestedOperation} {operation : Operation}
    (hid : isClauseId (toUpperCase requested.clauseId) = true)
    (h : recordedOperation sha toUpperCase normalizeRow plan requested = .ok operation) :
    operation.wellFormed = true := by
  cases requested with
  | addRow id expectedPaths tests fulfillment steps observableResult =>
      obtain ⟨_, -, h⟩ := bind_eq_ok_iff.mp h
      obtain ⟨_, -, h⟩ := bind_eq_ok_iff.mp h
      obtain ⟨_, -, h⟩ := bind_eq_ok_iff.mp h
      obtain ⟨_, -, h⟩ := bind_eq_ok_iff.mp h
      cases h
      exact hid
  | addTest id test =>
      obtain ⟨path, hpath, h⟩ := bind_eq_ok_iff.mp h
      obtain ⟨claim, -, h⟩ := bind_eq_ok_iff.mp h
      cases h
      simp [Operation.wellFormed, isPortablePath_of_exactPath hpath, hsha]
      exact hid
  | removeLocation id path =>
      obtain ⟨path', hpath, h⟩ := bind_eq_ok_iff.mp h
      obtain ⟨claim, -, h⟩ := bind_eq_ok_iff.mp h
      cases h
      simp [Operation.wellFormed, isPortablePath_of_exactPath hpath, hsha]
      exact hid
  | replaceLocation id old new =>
      obtain ⟨old', hold, h⟩ := bind_eq_ok_iff.mp h
      obtain ⟨new', hnew, h⟩ := bind_eq_ok_iff.mp h
      obtain ⟨claim, -, h⟩ := bind_eq_ok_iff.mp h
      cases h
      simp [Operation.wellFormed, isPortablePath_of_exactPath hold, isPortablePath_of_exactPath hnew, hsha]
      exact hid

theorem wellFormed_recordOperations (hsha : ∀ claim, isSha (sha claim) = true) {active : List Text}
    {requested : List RequestedOperation} {plan last : Plan} {operations : List Operation}
    (hids : ∀ r ∈ requested, isClauseId (toUpperCase r.clauseId) = true)
    (h : recordOperations sha toUpperCase normalizeRow active plan requested = .ok (operations, last)) :
    (∀ operation ∈ operations, operation.wellFormed = true) ∧ operations.length = requested.length := by
  induction requested generalizing plan operations with
  | nil =>
      cases h
      exact ⟨nofun, rfl⟩
  | cons first rest ih =>
      obtain ⟨hfirst, hids⟩ := List.forall_mem_cons.mp hids
      obtain ⟨_, -, h⟩ := bind_eq_ok_iff.mp h
      obtain ⟨operation, hoperation, h⟩ := bind_eq_ok_iff.mp h
      obtain ⟨next, -, h⟩ := bind_eq_ok_iff.mp h
      obtain ⟨⟨others, last'⟩, hrest, h⟩ := bind_eq_ok_iff.mp h
      cases h
      obtain ⟨hothers, hlength⟩ := ih hids hrest
      exact ⟨List.forall_mem_cons.mpr ⟨wellFormed_recordedOperation hsha hfirst hoperation, hothers⟩,
        congrArg Nat.succ hlength⟩

theorem isSequenceId_rowCorrectionId (amendments : List Value) :
    isSequenceId (js "PRC-") (rowCorrectionId amendments) = true := by
  have hdigits : ∀ n, ∀ u ∈ natText n, isDigit u = true := fun n => lastDigits_isDigit _ n
  unfold isSequenceId rowCorrectionId
  dsimp only
  generalize hn : amendments.countP (fun v => kindOf v = some rowKind) + 1 = n
  rw [List.append_assoc, List.drop_left]
  have hlength : 3 ≤ (List.replicate (3 - (natText n).length) (0x30 : UInt16) ++ natText n).length := by
    rw [List.length_append, List.length_replicate]
    omega
  have hall : (List.replicate (3 - (natText n).length) (0x30 : UInt16) ++ natText n).all isDigit = true := by
    rw [List.all_append, Bool.and_eq_true, List.all_eq_true, List.all_eq_true]
    refine ⟨fun u hu => ?_, hdigits n⟩
    rw [List.eq_of_mem_replicate hu]
    rfl
  rw [decide_eq_true hlength, hall, Bool.and_true, Bool.and_true]
  exact List.isPrefixOf_iff_prefix.mpr (List.prefix_append _ _)

/-- A decision whose own fields are well formed is recorded as a well formed correction. -/
theorem wellFormed_rowCorrectionOf (hsha : ∀ claim, isSha (sha claim) = true)
    {validate : Plan → Except Failure Unit} {workflow : Workflow} {owner plan : Plan}
    {request : RowRequest} {operations : List Operation}
    (hrequest : request.wellFormed toUpperCase isUuid isDatetime owner = true)
    (h : prepareRowCorrection sha toUpperCase normalizeRow validate owner request = .ok (operations, plan)) :
    (rowCorrectionOf workflow owner request operations).wellFormed isUuid isDatetime = true := by
  obtain ⟨_, -, h⟩ := bind_eq_ok_iff.mp h
  obtain ⟨_, hcount, h⟩ := bind_eq_ok_iff.mp h
  obtain ⟨⟨recorded, last⟩, hrecorded, h⟩ := bind_eq_ok_iff.mp h
  obtain ⟨_, -, h⟩ := bind_eq_ok_iff.mp h
  obtain ⟨_, -, h⟩ := bind_eq_ok_iff.mp h
  obtain ⟨_, hreason, h⟩ := bind_eq_ok_iff.mp h
  cases h
  rw [failIf_eq_ok_iff] at hcount hreason
  simp only [RowRequest.wellFormed, Bool.and_eq_true, decide_eq_true_eq, List.all_eq_true] at hrequest
  obtain ⟨⟨⟨⟨⟨⟨⟨⟨hphase, hgeneration⟩, hmap⟩, hactor⟩, hgroup⟩, huuid⟩, hdate⟩, hissue⟩, hids⟩ := hrequest
  obtain ⟨hoperations, hlength⟩ := wellFormed_recordOperations hsha hids hrecorded
  have hne : operations ≠ [] := by
    rintro rfl
    exact hcount (.inl (List.length_eq_zero_iff.mp hlength.symm))
  have hle : operations.length ≤ maxOperations := by
    rw [hlength]
    exact Nat.not_lt.mp fun hlt => hcount (.inr hlt)
  unfold RowCorrection.wellFormed rowCorrectionOf
  simp only [Bool.and_eq_true, decide_eq_true_eq, List.all_eq_true]
  exact ⟨⟨⟨⟨⟨⟨⟨⟨⟨⟨⟨⟨isSequenceId_rowCorrectionId _, hphase⟩, hgeneration⟩, hmap⟩, hne⟩, hle⟩,
    hoperations⟩, not_not.mp hreason⟩, hactor⟩, hgroup⟩, huuid⟩, hdate⟩, hissue⟩

end Form

/-! ## Stories -/

/-- An approved plan of a phase as it is bound, and as the last recording validated it. -/
structure Owned where
  record : Plan
  validated : Plan
deriving DecidableEq

structure Story where
  workflow : Workflow
  plans : List (Text × Owned)
deriving DecidableEq

inductive Action where
  /-- A generation of a phase is approved, with the plan its map is read as. -/
  | approve (phase : Text) (record : Plan) (mapSha256 : Text)
  | rows (phase : Text) (normalizeRow : Text → RawRow → Except Failure PlannedClaim)
      (validate : Plan → Except Failure Unit) (request : RowRequest)
  | evidence (phase : Text) (validate : Plan → Except Failure Unit) (request : EvidenceRequest)

section Story

variable (sha : PlannedClaim → Text) (toUpperCase : Text → Text) (isUuid isDatetime : Text → Bool)
  (itemRoot : Text)

def storyRefused : Failure := .singularityFlow (js "There is no approved plan to correct.") none

/-- What a publication and its approval guarantee of the plan it binds: it is one of the
phase and of a later generation, and its contracts are read back as they are. -/
def approvable (s : Story) (phase : Text) (record : Plan) : Bool :=
  record.phase = phase && record.planned && !record.amendment && isPositiveInt record.generation
    && normalizeVerificationContracts toUpperCase record.contracts = .ok record.contracts
    && (mapGet s.plans phase).all fun owned => laterGeneration owned.record.generation record.generation

/-- `phases[phase].claimMaps.planned = { sha256 }`. -/
def bindMap (workflow : Workflow) (phase mapSha256 : Text) : Workflow :=
  { workflow with phases := workflow.phases.map fun entry =>
      if entry.1 = phase then (entry.1, { entry.2 with planned := some mapSha256 }) else entry }

/-- The evidence directory of the Story. -/
def evidenceDirectory : Text := itemRoot ++ js "/evidence"

/-- One decision, and the Story it leaves behind. -/
def attempt (s : Story) : Action → Story × Except Failure Unit
  | .approve phase record mapSha256 =>
      if approvable toUpperCase s phase record then
        ({ workflow := bindMap s.workflow phase mapSha256
           plans := mapSet s.plans phase ⟨record, record⟩ }, .ok ())
      else (s, .error storyRefused)
  | .rows phase normalizeRow validate request =>
      match mapGet s.plans phase with
      | none => (s, .error storyRefused)
      | some owned =>
          match applyPlanCorrections sha toUpperCase isUuid isDatetime s.workflow
              (some (evidenceDirectory itemRoot)) owned.record with
          | .error e => (s, .error e)
          | .ok shown =>
              let (workflow, result) := recordPlanRowCorrection sha toUpperCase isUuid isDatetime
                normalizeRow validate s.workflow shown request
              match result with
              | .error e => ({ s with workflow }, .error e)
              | .ok plan =>
                  ({ workflow, plans := mapSet s.plans phase { owned with validated := plan } }, .ok ())
  | .evidence phase validate request =>
      match mapGet s.plans phase with
      | none => (s, .error storyRefused)
      | some owned =>
          match applyPlanCorrections sha toUpperCase isUuid isDatetime s.workflow
              (some (evidenceDirectory itemRoot)) owned.record with
          | .error e => (s, .error e)
          | .ok shown =>
              let (workflow, result) := recordEvidenceCorrection sha toUpperCase isDatetime validate
                s.workflow itemRoot shown request
              match result with
              | .error e => ({ s with workflow }, .error e)
              | .ok plan =>
                  ({ workflow, plans := mapSet s.plans phase { owned with validated := plan } }, .ok ())

/-- What is asked of a decision.  That its group is one of the plan's and that it is
bound to the plan's map is what its callers see to. -/
def Admitted (s : Story) : Action → Prop
  | .approve .. => True
  | .rows phase _ _ request =>
      request.authorityGroup ∈ evidenceOwnerAuthorities s.workflow phase
        ∧ s.workflow.pointer phase = some request.ownerMapSha256
  | .evidence phase _ request =>
      request.authorityGroup ∈ evidenceOwnerAuthorities s.workflow phase
        -- the plan that is corrected has room for one more contract
        ∧ ∀ owned, mapGet s.plans phase = some owned →
          (owned.validated.contracts.filter fun c => c.clauseId ≠ toUpperCase request.clauseId).length
            < maxRows

/-- A refusal by the last check finds a list in the workflow, or there is none: the fields
that the last check looks at are well formed. -/
def KeepsList (s : Story) : Action → Prop
  | .rows phase _ _ request =>
      s.workflow.planAmendments.isSome = true
        ∨ ∀ owned, mapGet s.plans phase = some owned →
          request.wellFormed toUpperCase isUuid isDatetime owned.record = true
  | _ => True

/-- A reader of an approved plan gets what the last recording validated, from the
workflow as it is and as it is written and read back. -/
def Replays (s : Story) : Prop :=
  ∀ phase owned, mapGet s.plans phase = some owned →
    ∀ root ∈ [none, some (evidenceDirectory itemRoot)],
      ∃ amendments, reread s.workflow.amendments = some amendments
        ∧ applyPlanCorrections sha toUpperCase isUuid isDatetime
          ⟨s.workflow.phases, some amendments⟩ root owned.record = .ok owned.validated

/-- A correction of a phase's plan changes nothing for the readers of other plans and
generations. -/
def LeavesOthers (s : Story) (phase : Text) (s' : Story) : Prop :=
  ∀ owned, mapGet s.plans phase = some owned → ∀ record : Plan,
    ¬ (phase = record.phase ∧ owned.record.generation.same record.generation = true) →
    ∀ root, applyPlanCorrections sha toUpperCase isUuid isDatetime s'.workflow root record
      = applyPlanCorrections sha toUpperCase isUuid isDatetime s.workflow root record

/-! ## The invariant -/

/-- An approved plan, which its readers show as the last recording validated it. -/
structure OwnedOk (s : Story) (phase : Text) (owned : Owned) : Prop where
  phase : owned.record.phase = phase
  amendment : owned.record.amendment = false
  generation : isPositiveInt owned.record.generation = true
  contracts : normalizeVerificationContracts toUpperCase owned.record.contracts
    = .ok owned.record.contracts
  replay : ∀ root ∈ [none, some (evidenceDirectory itemRoot)],
    applyAmendments sha toUpperCase isUuid isDatetime s.workflow root owned.record s.workflow.amendments
      = .ok owned.validated

/-- An amendment of the Story: passed over, or a correction of a plan that is still
there or of an earlier generation of it. -/
def AmendmentOk (s : Story) (value : Value) : Prop :=
  (PassedOver value ∧ Kept value)
    ∨ ∃ phase owned generation, mapGet s.plans phase = some owned
      ∧ NotLater generation owned.record.generation
      ∧ Recorded isUuid isDatetime (evidenceDirectory itemRoot) s.workflow phase generation value

structure Inv (s : Story) : Prop where
  amendments : ∀ value ∈ s.workflow.amendments, AmendmentOk isUuid isDatetime itemRoot s value
  owned : ∀ phase owned, mapGet s.plans phase = some owned →
    OwnedOk sha toUpperCase isUuid isDatetime itemRoot s phase owned

variable {sha toUpperCase isUuid isDatetime itemRoot} {s : Story}

theorem AmendmentOk.kept {value : Value} (h : AmendmentOk isUuid isDatetime itemRoot s value) :
    Kept value := by
  rcases h with ⟨-, h⟩ | ⟨_, _, _, -, -, h⟩
  · exact h
  · exact h.kept

theorem Inv.replays (hupper : ∀ t, isAcId t = true → toUpperCase t = t)
    (h : Inv sha toUpperCase isUuid isDatetime itemRoot s) :
    Replays sha toUpperCase isUuid isDatetime itemRoot s := by
  intro phase owned howned root hroot
  have hok := h.owned phase owned howned
  refine ⟨s.workflow.amendments, reread_eq fun v hv => (h.amendments v hv).kept, ?_⟩
  unfold applyPlanCorrections
  rw [hok.amendment, if_neg Bool.false_ne_true]
  have hauthorities : ∀ phase, evidenceOwnerAuthorities ⟨s.workflow.phases, some s.workflow.amendments⟩ phase
      = evidenceOwnerAuthorities s.workflow phase := fun _ => rfl
  exact (applyAmendments_congr hupper hauthorities rfl).trans (hok.replay root hroot)

/-- What the readers of an approved plan are shown. -/
theorem Inv.shown (h : Inv sha toUpperCase isUuid isDatetime itemRoot s) {phase : Text} {owned : Owned}
    (howned : mapGet s.plans phase = some owned) :
    applyPlanCorrections sha toUpperCase isUuid isDatetime s.workflow (some (evidenceDirectory itemRoot))
      owned.record = .ok owned.validated := by
  have hok := h.owned phase owned howned
  unfold applyPlanCorrections
  rw [hok.amendment, if_neg Bool.false_ne_true]
  exact hok.replay _ (List.mem_cons_of_mem _ List.mem_cons_self)

theorem OwnedOk.corrects (hupper : ∀ t, isAcId t = true → toUpperCase t = t) {phase : Text} {owned : Owned}
    (h : OwnedOk sha toUpperCase isUuid isDatetime itemRoot s phase owned) :
    Corrects toUpperCase owned.record owned.validated :=
  corrects_applyAmendments hupper (h.replay none List.mem_cons_self)

/-! ### A recording -/

@[simp] theorem amendments_push (workflow : Workflow) (value : Value) :
    (workflow.push value).amendments = workflow.amendments ++ [value] := rfl

theorem authorities_push (workflow : Workflow) (value : Value) (phase : Text) :
    evidenceOwnerAuthorities (workflow.push value) phase = evidenceOwnerAuthorities workflow phase := rfl

theorem pointer_push (workflow : Workflow) (value : Value) (phase : Text) :
    (workflow.push value).pointer phase = workflow.pointer phase := rfl

theorem Recorded.mono {workflow workflow' : Workflow} {phase : Text} {generation : Number} {value : Value}
    {directory : Text}
    (hauthorities : ∀ phase, evidenceOwnerAuthorities workflow' phase
      = evidenceOwnerAuthorities workflow phase)
    (h : Recorded isUuid isDatetime directory workflow phase generation value) :
    Recorded isUuid isDatetime directory workflow' phase generation value := by
  unfold Recorded
  rw [hauthorities]
  exact h

/-- **A recording keeps the invariant**: the pushed correction leads its own plan to the
one that was validated, and no other plan anywhere. -/
theorem Inv.push (hupper : ∀ t, isAcId t = true → toUpperCase t = t)
    (h : Inv sha toUpperCase isUuid isDatetime itemRoot s) {phase : Text} {owned : Owned}
    (howned : mapGet s.plans phase = some owned) {value : Value} {plan : Plan}
    (hrecorded : Recorded isUuid isDatetime (evidenceDirectory itemRoot) s.workflow phase
      owned.record.generation value)
    (hleads : ∀ root ∈ [none, some (evidenceDirectory itemRoot)],
      applyAmendment sha toUpperCase isUuid isDatetime s.workflow root owned.validated value = .ok plan) :
    Inv sha toUpperCase isUuid isDatetime itemRoot
        ⟨s.workflow.push value, mapSet s.plans phase { owned with validated := plan }⟩
      ∧ LeavesOthers sha toUpperCase isUuid isDatetime s phase
        ⟨s.workflow.push value, mapSet s.plans phase { owned with validated := plan }⟩ := by
  have hok := h.owned phase owned howned
  -- the pushed correction alone, for a reader of another plan
  have hother : ∀ (root : Option Text) (record next : Plan),
      ¬ (phase = record.phase ∧ owned.record.generation.same record.generation = true) →
      applyAmendments sha toUpperCase isUuid isDatetime s.workflow root record s.workflow.amendments
        = .ok next →
      applyAmendment sha toUpperCase isUuid isDatetime s.workflow root next value = .ok next := by
    intro root record next hne hnext
    have hcorrects := corrects_applyAmendments hupper hnext
    refine applyAmendment_other hrecorded ?_
    rw [hcorrects.phase, hcorrects.generation]
    exact hne
  have hsplit : ∀ (root : Option Text) (record : Plan),
      applyAmendments sha toUpperCase isUuid isDatetime (s.workflow.push value) root record
          (s.workflow.push value).amendments
        = applyAmendments sha toUpperCase isUuid isDatetime s.workflow root record s.workflow.amendments
          >>= fun next =>
            applyAmendment sha toUpperCase isUuid isDatetime s.workflow root next value := by
    intro root record
    rw [applyAmendments_congr hupper (authorities_push _ _) (pointer_push _ _ _), amendments_push,
      applyAmendments_append]
    congr 1
    funext next
    rw [applyAmendments]
    cases applyAmendment sha toUpperCase isUuid isDatetime s.workflow root next value <;> rfl
  refine ⟨⟨fun v hv => ?_, fun phase' owned' howned' => ?_⟩, fun owned' howned' record hne root => ?_⟩
  · -- the amendments
    have hplans : ∀ phase' owned', mapGet s.plans phase' = some owned' →
        ∃ owned'', mapGet (mapSet s.plans phase { owned with validated := plan }) phase' = some owned''
          ∧ owned''.record = owned'.record := by
      intro phase' owned' howned'
      by_cases heq : phase' = phase
      · subst heq
        obtain rfl := Option.some_inj.mp (howned.symm.trans howned')
        exact ⟨_, mapGet_mapSet_self _ _ _, rfl⟩
      · exact ⟨owned', (mapGet_mapSet_of_ne heq).trans howned', rfl⟩
    rcases List.mem_append.mp hv with hv | hv
    · rcases h.amendments v hv with hpassed | ⟨phase', owned', generation, howned', hlater, hv⟩
      · exact .inl hpassed
      · obtain ⟨owned'', howned'', heq⟩ := hplans phase' owned' howned'
        exact .inr ⟨phase', owned'', generation, howned'', heq ▸ hlater, hv.mono (authorities_push _ _)⟩
    · rw [List.mem_singleton.mp hv]
      obtain ⟨owned'', howned'', heq⟩ := hplans phase owned howned
      refine .inr ⟨phase, owned'', _, howned'', ?_, hrecorded.mono (authorities_push _ _)⟩
      rw [heq]
      exact NotLater.refl hok.generation
  · -- the plans
    by_cases heq : phase' = phase
    · subst heq
      obtain rfl := Option.some_inj.mp ((mapGet_mapSet_self _ _ _).symm.trans howned')
      refine ⟨hok.phase, hok.amendment, hok.generation, hok.contracts, fun root hroot => ?_⟩
      rw [hsplit]
      exact bind_eq_ok_iff.mpr ⟨owned.validated, hok.replay root hroot, hleads root hroot⟩
    · have hget : mapGet s.plans phase' = some owned' := (mapGet_mapSet_of_ne heq).symm.trans howned'
      have hok' := h.owned phase' owned' hget
      refine ⟨hok'.phase, hok'.amendment, hok'.generation, hok'.contracts, fun root hroot => ?_⟩
      rw [hsplit]
      refine bind_eq_ok_iff.mpr ⟨owned'.validated, hok'.replay root hroot, ?_⟩
      refine hother root owned'.record owned'.validated (fun hsame => ?_) (hok'.replay root hroot)
      exact heq (hok'.phase.symm.trans hsame.1.symm)
  · -- the readers of other plans
    obtain rfl := Option.some_inj.mp (howned.symm.trans howned')
    unfold applyPlanCorrections
    split
    · rfl
    · rw [hsplit]
      cases hnext : applyAmendments sha toUpperCase isUuid isDatetime s.workflow root record
          s.workflow.amendments with
      | error e => rfl
      | ok next => exact hother root record next hne hnext

/-! ### The decisions -/

/-- A correction of rows is refused before it touches the workflow, or by the last check,
or it is pushed. -/
theorem recordPlanRowCorrection_cases
    (normalizeRow : Text → RawRow → Except Failure PlannedClaim) (validate : Plan → Except Failure Unit)
    (workflow : Workflow) (owner : Plan) (request : RowRequest) :
    (∃ e, recordPlanRowCorrection sha toUpperCase isUuid isDatetime normalizeRow validate workflow owner
        request = (workflow, .error e))
      ∨ ∃ operations plan,
        prepareRowCorrection sha toUpperCase normalizeRow validate owner request = .ok (operations, plan)
          ∧ (((rowCorrectionOf workflow owner request operations).wellFormed isUuid isDatetime ≠ true
              ∧ ∃ e, recordPlanRowCorrection sha toUpperCase isUuid isDatetime normalizeRow validate
                workflow owner request = (⟨workflow.phases, some workflow.amendments⟩, .error e))
            ∨ ((rowCorrectionOf workflow owner request operations).wellFormed isUuid isDatetime = true
              ∧ recordPlanRowCorrection sha toUpperCase isUuid isDatetime normalizeRow validate workflow
                owner request = (workflow.push (rowCorrectionOf workflow owner request operations).toValue,
                  .ok plan))) := by
  unfold recordPlanRowCorrection
  cases hprepare : prepareRowCorrection sha toUpperCase normalizeRow validate owner request with
  | error e => exact .inl ⟨e, rfl⟩
  | ok result =>
      obtain ⟨operations, plan⟩ := result
      refine .inr ⟨operations, plan, rfl, ?_⟩
      dsimp only
      by_cases hform : (rowCorrectionOf workflow owner request operations).wellFormed isUuid isDatetime = true
      · exact .inr ⟨hform, if_pos hform⟩
      · exact .inl ⟨hform, _, if_neg hform⟩

/-- The pushed correction leads the plan it was decided against to the validated one. -/
theorem applyAmendment_recorded_row
    {normalizeRow : Text → RawRow → Except Failure PlannedClaim} {validate : Plan → Except Failure Unit}
    {workflow : Workflow} {owner plan : Plan} {request : RowRequest} {operations : List Operation}
    {root : Option Text} (hgeneration : isPositiveInt owner.generation = true)
    (hauthority : request.authorityGroup ∈ evidenceOwnerAuthorities workflow owner.phase)
    (hpointer : workflow.pointer owner.phase = some request.ownerMapSha256)
    (hform : (rowCorrectionOf workflow owner request operations).wellFormed isUuid isDatetime = true)
    (h : prepareRowCorrection sha toUpperCase normalizeRow validate owner request = .ok (operations, plan)) :
    applyAmendment sha toUpperCase isUuid isDatetime workflow root owner
      (rowCorrectionOf workflow owner request operations).toValue = .ok plan := by
  have hsame : ¬ ((rowCorrectionOf workflow owner request operations).ownerPhase ≠ owner.phase
      ∨ (!(rowCorrectionOf workflow owner request operations).ownerGeneration.same owner.generation) = true) := by
    rintro (hphase | hgen)
    · exact hphase rfl
    · have := same_of_positiveInt hgeneration
      rw [rowCorrectionOf, this] at hgen
      cases hgen
  have hbound : ¬ workflow.pointer owner.phase
      ≠ some (rowCorrectionOf workflow owner request operations).ownerMapSha256 := not_not.mpr hpointer
  rw [applyAmendment_row hform (trim_trim _) hauthority, if_neg hsame, if_neg hbound]
  obtain ⟨_, -, h⟩ := bind_eq_ok_iff.mp h
  obtain ⟨_, -, h⟩ := bind_eq_ok_iff.mp h
  obtain ⟨⟨recorded, last⟩, hrecorded, h⟩ := bind_eq_ok_iff.mp h
  obtain ⟨_, -, h⟩ := bind_eq_ok_iff.mp h
  obtain ⟨_, -, h⟩ := bind_eq_ok_iff.mp h
  obtain ⟨_, -, h⟩ := bind_eq_ok_iff.mp h
  cases h
  exact applyOperations_of_record hrecorded

theorem prepareEvidence_ok {validate : Plan → Except Failure Unit} {workflow : Workflow} {owner : Plan}
    {request : EvidenceRequest} {claim corrected : PlannedClaim} {contract : Contract}
    (h : prepareEvidence toUpperCase validate workflow itemRoot owner request
      = .ok (claim, corrected, contract)) :
    owner.claim (toUpperCase request.clauseId) = some claim
      ∧ isAcId (toUpperCase request.clauseId) = true
      ∧ (evidenceDirectory itemRoot ++ js "/").isPrefixOf request.evidencePath = true
      ∧ evidenceCorrectionProjection toUpperCase (toUpperCase request.clauseId) claim
          request.evidencePath request.method = .ok (corrected, contract) := by
  obtain ⟨_, -, h⟩ := bind_eq_ok_iff.mp h
  obtain ⟨_, -, h⟩ := bind_eq_ok_iff.mp h
  obtain ⟨_, hid, h⟩ := bind_eq_ok_iff.mp h
  obtain ⟨_, hprefix, h⟩ := bind_eq_ok_iff.mp h
  obtain ⟨_, -, h⟩ := bind_eq_ok_iff.mp h
  split at h
  · cases h
  · next found hfound =>
      obtain ⟨_, -, h⟩ := bind_eq_ok_iff.mp h
      obtain ⟨_, -, h⟩ := bind_eq_ok_iff.mp h
      obtain ⟨⟨corrected', contract'⟩, hprojection, h⟩ := bind_eq_ok_iff.mp h
      obtain ⟨_, -, h⟩ := bind_eq_ok_iff.mp h
      cases h
      rw [failIf_eq_ok_iff, Bool.not_eq_true', Bool.not_eq_false] at hprefix hid
      refine ⟨(Option.filter_eq_some_iff.mp hfound).1, hid, ?_, hprojection⟩
      rw [evidenceDirectory, List.append_assoc]
      exact hprefix

/-- A reader accepts the proposed contract among those of the plan, if there is room. -/
theorem projectEvidence_eq (hupper : ∀ t, isAcId t = true → toUpperCase t = t) {owner : Plan} {id path : Text}
    {claim corrected : PlannedClaim} {contract : Contract} {method : EvidenceMethod}
    (hcontracts : normalizeVerificationContracts toUpperCase owner.contracts = .ok owner.contracts)
    (hroom : (owner.contracts.filter fun c => c.clauseId ≠ id).length < maxRows)
    (hid : isAcId id = true)
    (h : evidenceCorrectionProjection toUpperCase id claim path method = .ok (corrected, contract)) :
    projectEvidence toUpperCase owner id claim path method
      = .ok (proposedPlan owner id corrected contract) := by
  refine bind_eq_ok_iff.mpr ⟨(corrected, contract), h, ?_⟩
  obtain ⟨contracts, hone, h⟩ := bind_eq_ok_iff.mp h
  have hcontract : contract.clauseId = id ∧ Accepted contract := by
    obtain ⟨haccepted, -⟩ := accepted_of_normalize hone
    obtain rfl := normalize_singleton hone
    cases h
    exact ⟨hupper _ hid, haccepted _ (List.mem_singleton_self _)⟩
  obtain ⟨howner, hids⟩ := accepted_of_normalize hcontracts
  refine bind_eq_ok_iff.mpr ⟨_, normalize_of_accepted hupper ?_ ?_ ?_, rfl⟩
  · intro c hc
    rcases List.mem_append.mp hc with hc | hc
    · exact howner c (List.mem_filter.mp hc).1
    · rw [List.mem_singleton.mp hc]
      exact hcontract.2
  · rw [List.map_append, List.map_singleton]
    refine List.Nodup.append (hids.sublist (List.filter_sublist.map _)) (List.nodup_singleton _) ?_
    intro t ht hmem
    obtain ⟨c, hc, rfl⟩ := List.mem_map.mp ht
    have hne := (List.mem_filter.mp hc).2
    rw [List.mem_singleton.mp hmem, hcontract.1] at hne
    simp at hne
  · rw [List.length_append, List.length_singleton]
    exact hroom

/-- The same of an evidence correction, where the plan has room for its contract. -/
theorem applyAmendment_recorded_evidence (hupper : ∀ t, isAcId t = true → toUpperCase t = t)
    {validate : Plan → Except Failure Unit} {workflow : Workflow} {owner : Plan}
    {request : EvidenceRequest} {claim corrected : PlannedClaim} {contract : Contract}
    {root : Option Text} (hroot : root ∈ [none, some (evidenceDirectory itemRoot)])
    (hgeneration : isPositiveInt owner.generation = true)
    (hcontracts : normalizeVerificationContracts toUpperCase owner.contracts = .ok owner.contracts)
    (hroom : (owner.contracts.filter fun c => c.clauseId ≠ toUpperCase request.clauseId).length < maxRows)
    (hauthority : request.authorityGroup ∈ evidenceOwnerAuthorities workflow owner.phase)
    (hform : (evidenceAmendmentOf sha toUpperCase workflow owner request claim).wellFormed isDatetime = true)
    (h : prepareEvidence toUpperCase validate workflow itemRoot owner request
      = .ok (claim, corrected, contract)) :
    applyAmendment sha toUpperCase isUuid isDatetime workflow root owner
        (evidenceAmendmentOf sha toUpperCase workflow owner request claim).toValue
      = .ok (proposedPlan owner (toUpperCase request.clauseId) corrected contract) := by
  have hsame : ¬ ((evidenceAmendmentOf sha toUpperCase workflow owner request claim).ownerPhase ≠ owner.phase
      ∨ (!(evidenceAmendmentOf sha toUpperCase workflow owner request claim).ownerGeneration.same
        owner.generation) = true) := by
    rintro (hphase | hgen)
    · exact hphase rfl
    · have := same_of_positiveInt hgeneration
      rw [evidenceAmendmentOf, this] at hgen
      cases hgen
  have hbound : ¬ workflow.pointer owner.phase
      ≠ some (evidenceAmendmentOf sha toUpperCase workflow owner request claim).ownerMapSha256 := by
    rw [not_not]
    cases hpointer : workflow.pointer owner.phase with
    | some map => simp [evidenceAmendmentOf, hpointer]
    | none =>
        -- a plan without a map has no digest of it, which the schema refuses
        simp [EvidenceAmendment.wellFormed, evidenceAmendmentOf, hpointer, isSha] at hform
  obtain ⟨hclaim, hid, hprefix, hprojection⟩ := prepareEvidence_ok h
  have hrow : ((owner.claim (toUpperCase request.clauseId)).filter fun c => sha c = sha claim)
      = some claim := by
    rw [hclaim]
    exact if_pos (decide_eq_true rfl)
  have hinside : ¬ (root.any fun root => !(root ++ js "/").isPrefixOf
      (evidenceAmendmentOf sha toUpperCase workflow owner request claim).path) = true := by
    rcases List.mem_cons.mp hroot with rfl | hroot
    · exact Bool.false_ne_true
    · rw [List.mem_singleton.mp hroot, Option.any_some, evidenceAmendmentOf, hprefix]
      exact Bool.false_ne_true
  rw [applyAmendment_evidence hform (trim_trim _) hauthority, if_neg hsame, if_neg hbound]
  have hmatch : (evidenceAmendmentOf sha toUpperCase workflow owner request claim).previousClaimSha256
      = sha claim := rfl
  rw [hmatch]
  change (match ((owner.claim (toUpperCase request.clauseId)).filter fun c => sha c = sha claim) with
    | none => _
    | some claim => _) = _
  rw [hrow]
  dsimp only
  rw [if_neg hinside]
  exact projectEvidence_eq hupper hcontracts hroom hid hprojection

/-! ### An approval -/

theorem mapGet_bindMap (workflow : Workflow) (phase other mapSha256 : Text) :
    mapGet (bindMap workflow phase mapSha256).phases other
      = (mapGet workflow.phases other).map fun state =>
        if other = phase then { state with planned := some mapSha256 } else state := by
  unfold bindMap mapGet
  dsimp only
  generalize workflow.phases = phases
  induction phases with
  | nil => rfl
  | cons entry rest ih =>
      by_cases hentry : entry.1 = other
      · subst hentry
        by_cases hphase : entry.1 = phase
        · simp [hphase]
        · simp [hphase]
      · by_cases hphase : entry.1 = phase
        · subst hphase
          simpa [hentry] using ih
        · simpa [hphase, hentry] using ih

theorem authorities_bindMap (workflow : Workflow) (phase mapSha256 other : Text) :
    evidenceOwnerAuthorities (bindMap workflow phase mapSha256) other
      = evidenceOwnerAuthorities workflow other := by
  unfold evidenceOwnerAuthorities
  rw [mapGet_bindMap]
  cases mapGet workflow.phases other with
  | none => rfl
  | some state =>
      rw [Option.map_some]
      dsimp only
      split <;> rfl

theorem pointer_bindMap {workflow : Workflow} {phase mapSha256 other : Text} (h : other ≠ phase) :
    (bindMap workflow phase mapSha256).pointer other = workflow.pointer other := by
  unfold Workflow.pointer
  rw [mapGet_bindMap]
  cases mapGet workflow.phases other with
  | none => rfl
  | some state =>
      rw [Option.map_some, if_neg h]

/-- A plan that no correction is about is shown as it is. -/
theorem applyAmendments_none {workflow : Workflow} {root : Option Text} {plan : Plan} {amendments : List Value}
    (h : ∀ value ∈ amendments,
      applyAmendment sha toUpperCase isUuid isDatetime workflow root plan value = .ok plan) :
    applyAmendments sha toUpperCase isUuid isDatetime workflow root plan amendments = .ok plan := by
  induction amendments with
  | nil => rfl
  | cons value rest ih =>
      obtain ⟨hvalue, hrest⟩ := List.forall_mem_cons.mp h
      exact bind_eq_ok_iff.mpr ⟨plan, hvalue, ih hrest⟩

/-- **An approval keeps the invariant**: the corrections of earlier generations pass the
new plan over. -/
theorem Inv.approve (hupper : ∀ t, isAcId t = true → toUpperCase t = t)
    (h : Inv sha toUpperCase isUuid isDatetime itemRoot s) {phase mapSha256 : Text} {record : Plan}
    (happrovable : approvable toUpperCase s phase record = true) :
    Inv sha toUpperCase isUuid isDatetime itemRoot
      ⟨bindMap s.workflow phase mapSha256, mapSet s.plans phase ⟨record, record⟩⟩ := by
  unfold approvable at happrovable
  simp only [Bool.and_eq_true, decide_eq_true_eq, Bool.not_eq_true'] at happrovable
  obtain ⟨⟨⟨⟨⟨rfl, hplanned⟩, hamendment⟩, hgeneration⟩, hcontracts⟩, hlater⟩ := happrovable
  have hauthorities := authorities_bindMap s.workflow record.phase mapSha256
  have hearlier : ∀ owned, mapGet s.plans record.phase = some owned →
      laterGeneration owned.record.generation record.generation = true := by
    intro owned howned
    rw [howned] at hlater
    exact hlater
  refine ⟨fun v hv => ?_, fun phase owned howned => ?_⟩
  · rcases h.amendments v hv with hpassed | ⟨phase, owned, generation, howned, hnot, hv⟩
    · exact .inl hpassed
    · right
      by_cases heq : phase = record.phase
      · subst heq
        exact ⟨_, _, generation, mapGet_mapSet_self _ _ _, hnot.trans (hearlier owned howned),
          hv.mono hauthorities⟩
      · exact ⟨phase, owned, generation, (mapGet_mapSet_of_ne heq).trans howned, hnot,
          hv.mono hauthorities⟩
  · by_cases heq : phase = record.phase
    · subst heq
      obtain rfl := Option.some_inj.mp ((mapGet_mapSet_self _ _ _).symm.trans howned)
      refine ⟨rfl, hamendment, hgeneration, hcontracts, fun root _ => applyAmendments_none fun v hv => ?_⟩
      rcases h.amendments v hv with ⟨hpassed, -⟩ | ⟨phase, owned, generation, howned, hnot, hv⟩
      · exact applyAmendment_passedOver hpassed
      · refine applyAmendment_other (hv.mono hauthorities) ?_
        rintro ⟨rfl, hsame⟩
        exact absurd hsame (Bool.eq_false_iff.mp (hnot.not_same (hearlier owned howned)))
    · have hget : mapGet s.plans phase = some owned := (mapGet_mapSet_of_ne heq).symm.trans howned
      have hok := h.owned phase owned hget
      refine ⟨hok.phase, hok.amendment, hok.generation, hok.contracts, fun root hroot => ?_⟩
      refine (applyAmendments_congr hupper hauthorities ?_).trans (hok.replay root hroot)
      exact pointer_bindMap (hok.phase ▸ heq)

/-! ## Runs -/

theorem isFileSize_of_wellFormed {a : EvidenceAmendment} (h : a.wellFormed isDatetime = true) :
    isFileSize a.reviewedSize = true := by
  simp only [EvidenceAmendment.wellFormed, Bool.and_eq_true] at h
  exact h.1.1.1.1.1.2

/-- The phase whose plan a decision corrects. -/
def Action.corrects : Action → Option Text
  | .approve .. => none
  | .rows phase .. => some phase
  | .evidence phase .. => some phase

/-- What a decision about rows does. -/
theorem Inv.rows_cases (h : Inv sha toUpperCase isUuid isDatetime itemRoot s) (phase : Text)
    (normalizeRow : Text → RawRow → Except Failure PlannedClaim) (validate : Plan → Except Failure Unit)
    (request : RowRequest) :
    (∃ e, attempt sha toUpperCase isUuid isDatetime itemRoot s (.rows phase normalizeRow validate request)
        = (s, .error e))
      ∨ ∃ owned operations plan, mapGet s.plans phase = some owned
        ∧ prepareRowCorrection sha toUpperCase normalizeRow validate owned.validated request
          = .ok (operations, plan)
        ∧ (((rowCorrectionOf s.workflow owned.validated request operations).wellFormed isUuid isDatetime
              ≠ true
            ∧ ∃ e, attempt sha toUpperCase isUuid isDatetime itemRoot s
                (.rows phase normalizeRow validate request)
              = (⟨⟨s.workflow.phases, some s.workflow.amendments⟩, s.plans⟩, .error e))
          ∨ ((rowCorrectionOf s.workflow owned.validated request operations).wellFormed isUuid isDatetime
              = true
            ∧ attempt sha toUpperCase isUuid isDatetime itemRoot s
                (.rows phase normalizeRow validate request)
              = (⟨s.workflow.push (rowCorrectionOf s.workflow owned.validated request operations).toValue,
                  mapSet s.plans phase { owned with validated := plan }⟩, .ok ()))) := by
  cases howned : mapGet s.plans phase with
  | none => exact .inl ⟨storyRefused, by simp only [attempt, howned]⟩
  | some owned =>
      have hcases := @recordPlanRowCorrection_cases sha toUpperCase isUuid isDatetime normalizeRow validate
        s.workflow owned.validated request
      rcases hcases with ⟨e, hrecord⟩ | ⟨operations, plan, hprepare, ⟨hform, e, hrecord⟩ | ⟨hform, hrecord⟩⟩
      · exact .inl ⟨e, by simp only [attempt, howned, h.shown howned, hrecord]⟩
      · refine .inr ⟨owned, operations, plan, rfl, hprepare, .inl ⟨hform, e, ?_⟩⟩
        simp only [attempt, howned, h.shown howned, hrecord]
      · refine .inr ⟨owned, operations, plan, rfl, hprepare, .inr ⟨hform, ?_⟩⟩
        simp only [attempt, howned, h.shown howned, hrecord]

/-- What a decision about a criterion's evidence does. -/
theorem Inv.evidence_cases (h : Inv sha toUpperCase isUuid isDatetime itemRoot s) (phase : Text)
    (validate : Plan → Except Failure Unit) (request : EvidenceRequest) :
    (∃ e, attempt sha toUpperCase isUuid isDatetime itemRoot s (.evidence phase validate request)
        = (s, .error e))
      ∨ ∃ owned claim corrected contract, mapGet s.plans phase = some owned
        ∧ prepareEvidence toUpperCase validate s.workflow itemRoot owned.validated request
          = .ok (claim, corrected, contract)
        ∧ (evidenceAmendmentOf sha toUpperCase s.workflow owned.validated request claim).wellFormed isDatetime
          = true
        ∧ attempt sha toUpperCase isUuid isDatetime itemRoot s (.evidence phase validate request)
          = (⟨s.workflow.push
                (evidenceAmendmentOf sha toUpperCase s.workflow owned.validated request claim).toValue,
              mapSet s.plans phase { owned with
                validated := proposedPlan owned.validated (toUpperCase request.clauseId) corrected
                  contract }⟩, .ok ()) := by
  cases howned : mapGet s.plans phase with
  | none => exact .inl ⟨storyRefused, by simp only [attempt, howned]⟩
  | some owned =>
      cases hprepare : prepareEvidence toUpperCase validate s.workflow itemRoot owned.validated request with
      | error e =>
          refine .inl ⟨e, ?_⟩
          simp only [attempt, howned, h.shown howned, recordEvidenceCorrection, hprepare]
      | ok prepared =>
          obtain ⟨claim, corrected, contract⟩ := prepared
          by_cases hwell : (evidenceAmendmentOf sha toUpperCase s.workflow owned.validated request
              claim).wellFormed isDatetime = true
          · refine .inr ⟨owned, claim, corrected, contract, rfl, hprepare, hwell, ?_⟩
            simp only [attempt, howned, h.shown howned, recordEvidenceCorrection, hprepare, hwell, if_true]
          · refine .inl ⟨evidenceRefused (js "The evidence amendment is not well formed."), ?_⟩
            simp only [attempt, howned, h.shown howned, recordEvidenceCorrection, hprepare, hwell]
            rfl

/-- An empty list in the place of none changes nothing for a reader. -/
theorem Inv.listed (hupper : ∀ t, isAcId t = true → toUpperCase t = t)
    (h : Inv sha toUpperCase isUuid isDatetime itemRoot s) :
    Inv sha toUpperCase isUuid isDatetime itemRoot
        ⟨⟨s.workflow.phases, some s.workflow.amendments⟩, s.plans⟩
      ∧ ∀ phase, LeavesOthers sha toUpperCase isUuid isDatetime s phase
        ⟨⟨s.workflow.phases, some s.workflow.amendments⟩, s.plans⟩ := by
  have hauthorities : ∀ phase, evidenceOwnerAuthorities ⟨s.workflow.phases, some s.workflow.amendments⟩ phase
      = evidenceOwnerAuthorities s.workflow phase := fun _ => rfl
  refine ⟨⟨h.amendments, fun phase owned howned => ?_⟩, fun phase owned howned record _ root => ?_⟩
  · have hok := h.owned phase owned howned
    refine ⟨hok.phase, hok.amendment, hok.generation, hok.contracts, fun root hroot => ?_⟩
    exact (applyAmendments_congr hupper hauthorities rfl).trans (hok.replay root hroot)
  · unfold applyPlanCorrections
    split
    · rfl
    · exact applyAmendments_congr hupper hauthorities rfl

/-- **One decision**: an admitted one keeps the invariant, and leaves the readers of other
plans alone. -/
theorem Inv.attempted (hupper : ∀ t, isAcId t = true → toUpperCase t = t)
    (h : Inv sha toUpperCase isUuid isDatetime itemRoot s) {a : Action} (ha : Admitted toUpperCase s a) :
    Inv sha toUpperCase isUuid isDatetime itemRoot
        (attempt sha toUpperCase isUuid isDatetime itemRoot s a).1
      ∧ ∀ phase, a.corrects = some phase →
        LeavesOthers sha toUpperCase isUuid isDatetime s phase
          (attempt sha toUpperCase isUuid isDatetime itemRoot s a).1 := by
  cases a with
  | approve phase record mapSha256 =>
      refine ⟨?_, nofun⟩
      by_cases happrovable : approvable toUpperCase s phase record = true
      · rw [attempt, if_pos happrovable]
        exact h.approve hupper happrovable
      · rw [attempt, if_neg happrovable]
        exact h
  | rows phase normalizeRow validate request =>
      obtain ⟨hauthority, hpointer⟩ := ha
      rcases h.rows_cases phase normalizeRow validate request with ⟨e, heq⟩
        | ⟨owned, operations, plan, howned, hprepare, ⟨-, e, heq⟩ | ⟨hwell, heq⟩⟩
      · rw [heq]
        exact ⟨h, fun _ _ _ _ _ _ _ => rfl⟩
      · rw [heq]
        exact ⟨(h.listed hupper).1, fun phase _ => (h.listed hupper).2 phase⟩
      · rw [heq]
        have hok := h.owned phase owned howned
        have hcorrects := hok.corrects hupper
        have hphase : owned.validated.phase = phase := hcorrects.phase.trans hok.phase
        have hgeneration : isPositiveInt owned.validated.generation = true := by
          rw [hcorrects.generation]
          exact hok.generation
        have hrecorded : Recorded isUuid isDatetime (evidenceDirectory itemRoot) s.workflow phase
            owned.record.generation
            (rowCorrectionOf s.workflow owned.validated request operations).toValue :=
          .inl ⟨_, rfl, hwell, trim_trim _, hphase, hcorrects.generation, hauthority⟩
        obtain ⟨hinv, hothers⟩ := h.push hupper howned hrecorded fun root _ =>
          applyAmendment_recorded_row hgeneration (hphase.symm ▸ hauthority) (hphase.symm ▸ hpointer)
            hwell hprepare
        refine ⟨hinv, fun phase' hphase' => ?_⟩
        cases hphase'
        exact hothers
  | evidence phase validate request =>
      obtain ⟨hauthority, hroom⟩ := ha
      rcases h.evidence_cases phase validate request with ⟨e, heq⟩
        | ⟨owned, claim, corrected, contract, howned, hprepare, hwell, heq⟩
      · rw [heq]
        exact ⟨h, fun _ _ _ _ _ _ _ => rfl⟩
      · rw [heq]
        have hok := h.owned phase owned howned
        have hcorrects := hok.corrects hupper
        have hphase : owned.validated.phase = phase := hcorrects.phase.trans hok.phase
        have hgeneration : isPositiveInt owned.validated.generation = true := by
          rw [hcorrects.generation]
          exact hok.generation
        obtain ⟨-, -, hprefix, -⟩ := prepareEvidence_ok hprepare
        have hrecorded : Recorded isUuid isDatetime (evidenceDirectory itemRoot) s.workflow phase
            owned.record.generation
            (evidenceAmendmentOf sha toUpperCase s.workflow owned.validated request claim).toValue :=
          .inr ⟨_, rfl, hwell, trim_trim _, hphase, hcorrects.generation, hauthority, hprefix,
            spelled_ofNat (isFileSize_of_wellFormed hwell)⟩
        obtain ⟨hinv, hothers⟩ := h.push hupper howned hrecorded fun root hroot =>
          applyAmendment_recorded_evidence hupper hroot hgeneration (hcorrects.contracts hok.contracts)
            (hroom owned howned) (hphase.symm ▸ hauthority) hwell hprepare
        refine ⟨hinv, fun phase' hphase' => ?_⟩
        cases hphase'
        exact hothers

/-- **A refusal leaves the Story alone.** -/
theorem Inv.refused (hupper : ∀ t, isAcId t = true → toUpperCase t = t)
    (hsha : ∀ claim, isSha (sha claim) = true)
    (h : Inv sha toUpperCase isUuid isDatetime itemRoot s) {a : Action}
    (ha : KeepsList toUpperCase isUuid isDatetime s a) {e : Failure}
    (hrefused : (attempt sha toUpperCase isUuid isDatetime itemRoot s a).2 = .error e) :
    (attempt sha toUpperCase isUuid isDatetime itemRoot s a).1 = s := by
  cases a with
  | approve phase record mapSha256 =>
      by_cases happrovable : approvable toUpperCase s phase record = true
      · rw [attempt, if_pos happrovable] at hrefused
        cases hrefused
      · rw [attempt, if_neg happrovable]
  | rows phase normalizeRow validate request =>
      rcases h.rows_cases phase normalizeRow validate request with ⟨e, heq⟩
        | ⟨owned, operations, plan, howned, hprepare, ⟨hform, e, heq⟩ | ⟨hwell, heq⟩⟩
      · rw [heq]
      · rw [heq]
        rcases ha with hsome | hrequest
        · obtain ⟨⟨phases, planAmendments⟩, plans⟩ := s
          obtain ⟨amendments, hamendments⟩ := Option.isSome_iff_exists.mp hsome
          obtain rfl : planAmendments = some amendments := hamendments
          rfl
        · have hcorrects := (h.owned phase owned howned).corrects hupper
          have hvalidated : request.wellFormed toUpperCase isUuid isDatetime owned.validated = true := by
            unfold RowRequest.wellFormed
            rw [hcorrects.phase, hcorrects.generation]
            exact hrequest owned howned
          exact absurd (wellFormed_rowCorrectionOf hsha hvalidated hprepare) hform
      · rw [heq] at hrefused
        cases hrefused
  | evidence phase validate request =>
      rcases h.evidence_cases phase validate request with ⟨e, heq⟩
        | ⟨owned, claim, corrected, contract, -, -, -, heq⟩
      · rw [heq]
      · rw [heq] at hrefused
        cases hrefused

/-- A Story before its first plan: nothing is corrected yet. -/
structure Fresh (s : Story) : Prop where
  plans : s.plans = []
  amendments : ∀ value ∈ s.workflow.amendments, PassedOver value ∧ Kept value

theorem Fresh.inv (h : Fresh s) : Inv sha toUpperCase isUuid isDatetime itemRoot s where
  amendments value hvalue := .inl (h.amendments value hvalue)
  owned phase owned howned := by
    rw [h.plans] at howned
    cases howned

variable (sha toUpperCase isUuid isDatetime itemRoot)

/-- A decision as a step of a run, whether it is recorded or refused. -/
def storyStep (s : Story) (a : Action) : Except Failure Story :=
  .ok (attempt sha toUpperCase isUuid isDatetime itemRoot s a).1

variable {sha toUpperCase isUuid isDatetime itemRoot}

/-- **Corrections replay exactly.**  After every run of admitted decisions, the readers of
each approved plan get what the last recording validated; and of the next decision, an
admitted correction leaves the readers of other plans and generations alone, and a
refusal the whole Story. -/
theorem corrections_replay (hupper : ∀ t, isAcId t = true → toUpperCase t = t)
    (hsha : ∀ claim, isSha (sha claim) = true) {start : Story} (hstart : Fresh start)
    {past : List (Story × Action)} {s : Story}
    (hrun : GuardedRun (storyStep sha toUpperCase isUuid isDatetime itemRoot) start
      (Admitted toUpperCase) past s) :
    Replays sha toUpperCase isUuid isDatetime itemRoot s
      ∧ (∀ a phase, Admitted toUpperCase s a → a.corrects = some phase →
        LeavesOthers sha toUpperCase isUuid isDatetime s phase
          (attempt sha toUpperCase isUuid isDatetime itemRoot s a).1)
      ∧ ∀ a e, KeepsList toUpperCase isUuid isDatetime s a →
        (attempt sha toUpperCase isUuid isDatetime itemRoot s a).2 = .error e →
        (attempt sha toUpperCase isUuid isDatetime itemRoot s a).1 = s := by
  have hinv : Inv sha toUpperCase isUuid isDatetime itemRoot s := by
    refine hrun.run.invariant (fun _ s => Inv sha toUpperCase isUuid isDatetime itemRoot s)
      (Admitted toUpperCase) hrun.guarded hstart.inv ?_
    intro past s a s' h ha hstep
    obtain rfl := Except.ok.inj hstep
    exact (h.attempted hupper ha).1
  exact ⟨hinv.replays hupper, fun a phase ha => (hinv.attempted hupper ha).2 phase,
    fun a e ha => hinv.refused hupper hsha ha⟩

end Story

/-! ### A corrected plan -/

section Sample

def sampleSha : PlannedClaim → Text := fun _ => List.replicate 64 0x61

def sampleRow : PlannedClaim :=
  ⟨[js "a.mjs"], [js "a.test.mjs"], .applicable, none, none, none, none, [], none⟩

def samplePlan : Plan where
  phase := js "plan"
  generation := Number.ofNat 1
  planned := true
  amendment := false
  claims := [(js "A:AC-001", sampleRow)]
  verificationContracts := none

/-- A Story with one planning phase, in which nothing was decided yet. -/
def sampleStart : Story where
  workflow := ⟨[(js "plan", ⟨[js "leads"], [], none⟩)], none⟩
  plans := []

def sampleMap : Text := List.replicate 64 0x62

def sampleRequest (upstreamIssue : Option Text) : RowRequest where
  ownerMapSha256 := sampleMap
  operations := [.addTest (js "A:AC-001") (js "b.test.mjs")]
  activeClauseIds := [js "A:AC-001"]
  reason := js "The plan lacks this test."
  actor := js "lead"
  authorityGroup := js "leads"
  identityAssurance := none
  authorizationId := js "1"
  date := js "2026"
  upstreamIssue

/-- The Story with its plan approved. -/
def sampleApproved : Story :=
  (attempt sampleSha id (fun _ => true) (fun _ => true) (js "items") sampleStart
    (.approve (js "plan") samplePlan sampleMap)).1

/-- A test is added to a row. -/
def sampleCorrection (upstreamIssue : Option Text) : Action :=
  .rows (js "plan") (fun _ _ => .ok sampleRow) (fun _ => .ok ()) (sampleRequest upstreamIssue)

theorem sampleStart_fresh : Fresh sampleStart := ⟨rfl, nofun⟩

theorem sampleApproved_admits : Admitted id sampleApproved (sampleCorrection none) :=
  ⟨by decide +kernel, by decide +kernel⟩

/-- The correction is recorded, and every reader shows the added test. -/
theorem corrections_replay_sample :
    Replays sampleSha id (fun _ => true) (fun _ => true) (js "items")
      (attempt sampleSha id (fun _ => true) (fun _ => true) (js "items") sampleApproved
        (sampleCorrection none)).1 :=
  (corrections_replay (fun _ _ => rfl) (fun _ => show isSha (List.replicate 64 0x61) = true by decide +kernel) sampleStart_fresh
    ((GuardedRun.empty.next rfl trivial).next rfl sampleApproved_admits)).1

/-- **A refused correction leaves a list behind** in a workflow that had none: only the
last check refuses what is named as its upstream issue. -/
theorem refused_leaves_list :
    (attempt sampleSha id (fun _ => true) (fun _ => true) (js "items") sampleApproved
        (sampleCorrection (some (js "none")))).2
      = .error (rowRefused (js "The plan correction is not well formed."))
    ∧ sampleApproved.workflow.planAmendments = none
    ∧ (attempt sampleSha id (fun _ => true) (fun _ => true) (js "items") sampleApproved
        (sampleCorrection (some (js "none")))).1.workflow.planAmendments = some [] := by
  decide +kernel

end Sample

end Verification

end SingularityFlow
