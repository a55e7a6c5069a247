/-
# A record witnesses what was inspected

Records are found by criterion, slot and method alone, and a correction can give a
slot another file under its old name.  A record is bound to the plans by the digests
of their maps, which a correction does not change.  So a record outlives the
correction of its criterion: it goes on to meet a slot that it never inspected.

Where no criterion is corrected under a record, a record that meets a slot inspected
the file that the slot names now, and the row, the contract and the candidate are
those that it was recorded under.
-/
import SingularityFlow.Verification.WitnessRecords
import SingularityFlow.Lib.Run

namespace SingularityFlow

open Ecma

namespace Verification

/-! ## Runs -/

inductive WitnessAction where
  /-- A plan is approved, or a row or the evidence of a plan is corrected. -/
  | decide (action : Action)
  | specify (phase : Text) (specification : Option Text)
  | deliver (phase : Text) (delivery : Option Delivery)
  | write (file : Text) (sha256 : Option Text)
  | inspect (request : WitnessRequest)

/-- One phase is changed. -/
def WitnessState.change (s : WitnessState) (phase : Text) (f : WitnessPhase → WitnessPhase) :
    WitnessState :=
  { s with phases := s.phases.map fun entry =>
      if entry.1 = phase then (entry.1, f entry.2) else entry }

section Runs

variable (sha : PlannedClaim → Text) (toUpperCase : Text → Text) (isUuid isDatetime : Text → Bool)
  (itemRoot : Text) (planOf : Text → Option Plan) (recordSha256 : Value → Text)

def witnessStep (s : WitnessState) : WitnessAction → Except Failure WitnessState
  | .decide action =>
      .ok { s with story := (attempt sha toUpperCase isUuid isDatetime itemRoot s.story action).1 }
  | .specify phase specification => .ok (s.change phase fun state => { state with specification })
  | .deliver phase delivery => .ok (s.change phase fun state => { state with delivery })
  | .write file sha256 => .ok { s with currentSha256 := mapSet s.currentSha256 file sha256 }
  | .inspect request => do
      let record ← recordWitness sha toUpperCase isUuid isDatetime itemRoot planOf recordSha256 s request
      return { s with witnessRecords := s.witnessRecords ++ [record] }

/-- An approval binds the map that is read by its digest; of a correction is asked
what its callers see to. -/
def WitnessAction.Admitted (s : WitnessState) : WitnessAction → Prop
  | .decide (.approve _ record mapSha256) => planOf mapSha256 = some record
  | .decide action => Verification.Admitted toUpperCase s.story action
  | _ => True

/-- A Story at its beginning. -/
structure WitnessState.Fresh (s : WitnessState) : Prop where
  story : Verification.Fresh s.story
  unbound : ∀ phase, s.story.workflow.pointer phase = none
  records : s.witnessRecords = []

/-! ### Where a record comes from -/

/-- The state in which the record with this index was made. -/
def madeIn : List (WitnessState × WitnessAction) → Nat → Option WitnessState
  | [], _ => none
  | (s, .inspect _) :: past, n => if s.witnessRecords.length = n then some s else madeIn past n
  | _ :: past, n => madeIn past n

/-- The record has the index, and no later one is about its slot. -/
structure LatestAt (records : List WitnessRecord) (n : Nat) (record : WitnessRecord) : Prop where
  here : records[n]? = some record
  last : ∀ later ∈ records.drop (n + 1),
    ¬ (later.clauseId = record.clauseId ∧ later.slot = record.slot)

/-! ### The claim, and its condition -/

/-- The record, made in an earlier state, witnesses the slot of a contract in force. -/
structure Witnessed (made s : WitnessState) (clauseId : Text) (contract : Contract) (slot : Slot)
    (record : WitnessRecord) : Prop where
  criterion : record.clauseId = clauseId
  name : record.slot = slot.slot
  kind : record.method = slot.method
  inspected : slot.method = .inspection → slot.witness = .path record.file
  shown : slot.method = .visual → ∃ target, slot.witness = .target target ∧ record.target = some target
  answers : record.checklist = witnessChecklist.map fun item => (item, js "yes")
  inspectedBytes : mapGet made.currentSha256 record.file = some (some record.sha256)
  bytes : mapGet s.currentSha256 record.file = some (some record.sha256)
  rows : rowsInForce sha toUpperCase isUuid isDatetime itemRoot planOf s clauseId
    = rowsInForce sha toUpperCase isUuid isDatetime itemRoot planOf made clauseId
  stated : contractInForce sha toUpperCase isUuid isDatetime itemRoot planOf made clauseId = some contract
  context : s.context = made.context

/-- Each record that meets a slot witnesses it. -/
def Exact (past : List (WitnessState × WitnessAction)) (s : WitnessState) : Prop :=
  ∀ (instances : TestWitness → Text → Bool) (clauseId : Text) (claim : Option PlannedClaim)
    (effective : Effective) (entries : List Entry) (options : Options) (i : Nat) (slot : Slot)
    (result : SlotResult),
    effectiveContract clauseId (mergedVerificationContracts
      (plansInForce sha toUpperCase isUuid isDatetime itemRoot planOf s)) claim = some effective →
    options.records = witnessRecordResults recordSha256 s →
    effective.contract.slots[i]? = some slot → slot.method ≠ .test →
    (contractResult instances clauseId effective.contract entries options).slots[i]? = some result →
    result.status = .met →
    ∃ n record made, LatestAt s.witnessRecords n record ∧ madeIn past n = some made ∧
      Witnessed sha toUpperCase isUuid isDatetime itemRoot planOf made s clauseId effective.contract
        slot record

/-- No criterion was corrected under a record: since a latest record was made that is
bound to the present context, no amendment touched its criterion. -/
def Undisturbed (past : List (WitnessState × WitnessAction)) (s : WitnessState) : Prop :=
  ∀ n record made, LatestAt s.witnessRecords n record → record.outcome = .met →
    record.contextBinding = some (witnessContextBinding recordSha256 s) → madeIn past n = some made →
    ∀ value ∈ s.story.workflow.amendments.drop made.story.workflow.amendments.length,
      touches isUuid isDatetime value record.clauseId = false

end Runs

section Proofs

variable {sha : PlannedClaim → Text} {toUpperCase : Text → Text} {isUuid isDatetime : Text → Bool}
  {itemRoot : Text} {planOf : Text → Option Plan} {recordSha256 : Value → Text}

/-! ## What a record holds -/

/-- What was checked of a record when it was made. -/
structure RecordedIn (sha : PlannedClaim → Text) (toUpperCase : Text → Text)
    (isUuid isDatetime : Text → Bool) (itemRoot : Text) (planOf : Text → Option Plan)
    (recordSha256 : Value → Text) (made : WitnessState) (record : WitnessRecord) : Prop where
  slot : ∃ contract slot,
    contractInForce sha toUpperCase isUuid isDatetime itemRoot planOf made record.clauseId = some contract
      ∧ slot ∈ contract.slots ∧ slot.slot = record.slot ∧ slot.method = record.method
      ∧ (slot.method = .inspection → slot.witness.path? = some record.file)
      ∧ (slot.method = .visual → ∀ target, slot.witness = .target target → record.target = some target)
  bytes : mapGet made.currentSha256 record.file = some (some record.sha256)
  context : record.contextBinding = some (witnessContextBinding recordSha256 made)
  answers : record.outcome = .met → record.checklist = witnessChecklist.map fun item => (item, js "yes")

theorem checkSlot_ok {clauseId file : Text} {found : Option Slot} {slot : Slot}
    (h : checkSlot clauseId file found = .ok slot) :
    found = some slot ∧ (slot.method = .inspection → slot.witness.path? = some file) := by
  unfold checkSlot at h
  split at h
  · cases h
  · next slot' hfound =>
      split at h
      · cases h
      · next hpath =>
          cases h
          refine ⟨(Option.filter_eq_some_iff.mp hfound).1, fun hinspection => ?_⟩
          by_contra hne
          exact hpath ⟨hinspection, hne⟩

theorem recordWitness_spec {s : WitnessState} {request : WitnessRequest} {record : WitnessRecord}
    (h : recordWitness sha toUpperCase isUuid isDatetime itemRoot planOf recordSha256 s request
      = .ok record) :
    RecordedIn sha toUpperCase isUuid isDatetime itemRoot planOf recordSha256 s record := by
  obtain ⟨_, -, h⟩ := bind_eq_ok_iff.mp h
  obtain ⟨slot, hslot, h⟩ := bind_eq_ok_iff.mp h
  obtain ⟨_, -, h⟩ := bind_eq_ok_iff.mp h
  obtain ⟨_, hdigest, h⟩ := bind_eq_ok_iff.mp h
  obtain ⟨_, -, h⟩ := bind_eq_ok_iff.mp h
  obtain ⟨_, -, h⟩ := bind_eq_ok_iff.mp h
  cases h
  obtain ⟨hfound, hpath⟩ := checkSlot_ok hslot
  obtain ⟨contract, hcontract, hfind⟩ := Option.bind_eq_some_iff.mp hfound
  have hname := List.find?_some hfind
  refine ⟨⟨contract, slot, hcontract, List.mem_of_find?_eq_some hfind, rfl, rfl, hpath, ?_⟩, ?_, rfl, ?_⟩
  · intro hvisual target htarget
    simp [htarget, hvisual]
  · have hread : isFileDigest (((mapGet s.currentSha256 request.file).getD none).getD []) = true := by
      have hnot := failIf_eq_ok_iff.mp hdigest
      simpa using hnot
    change mapGet s.currentSha256 request.file
      = some (some (((mapGet s.currentSha256 request.file).getD none).getD []))
    cases hfile : mapGet s.currentSha256 request.file with
    | none =>
        rw [hfile] at hread
        cases hread
    | some current =>
        cases current with
        | none =>
            rw [hfile] at hread
            cases hread
        | some sha256 => rfl
  · intro hmet
    refine List.map_congr_left fun item hitem => ?_
    dsimp only at hmet
    split at hmet
    · next hall =>
        have hyes := List.all_eq_true.mp hall _ (List.mem_map_of_mem hitem)
        exact congrArg (Prod.mk item) (of_decide_eq_true hyes)
    · cases hmet

/-! ## What a decision leaves -/

section

variable (sha toUpperCase isUuid isDatetime itemRoot)

/-- A correction adds to the amendments, and leaves the maps of the plans. -/
theorem recordPlanRowCorrection_grows (normalizeRow : Text → RawRow → Except Failure PlannedClaim)
    (validate : Plan → Except Failure Unit) (workflow : Workflow) (owner : Plan) (request : RowRequest) :
    ∃ added, (recordPlanRowCorrection sha toUpperCase isUuid isDatetime normalizeRow validate workflow
        owner request).1.phases = workflow.phases
      ∧ (recordPlanRowCorrection sha toUpperCase isUuid isDatetime normalizeRow validate workflow
        owner request).1.amendments = workflow.amendments ++ added := by
  rcases recordPlanRowCorrection_cases normalizeRow validate workflow owner request with
    ⟨e, heq⟩ | ⟨operations, plan, -, ⟨-, e, heq⟩ | ⟨-, heq⟩⟩
  · exact ⟨[], by rw [heq], by rw [heq, List.append_nil]⟩
  · exact ⟨[], by rw [heq], by rw [heq, List.append_nil]; rfl⟩
  · exact ⟨_, by rw [heq]; rfl, by rw [heq]; rfl⟩

theorem recordEvidenceCorrection_grows (validate : Plan → Except Failure Unit) (workflow : Workflow)
    (owner : Plan) (request : EvidenceRequest) :
    ∃ added, (recordEvidenceCorrection sha toUpperCase isDatetime validate workflow itemRoot owner
        request).1.phases = workflow.phases
      ∧ (recordEvidenceCorrection sha toUpperCase isDatetime validate workflow itemRoot owner
        request).1.amendments = workflow.amendments ++ added := by
  unfold recordEvidenceCorrection
  split
  · exact ⟨[], rfl, (List.append_nil _).symm⟩
  · dsimp only
    split
    · exact ⟨_, rfl, rfl⟩
    · exact ⟨[], rfl, (List.append_nil _).symm⟩

end

/-- The plan that a phase is bound to is the one that its map is read as. -/
def Linked (planOf : Text → Option Plan) (story : Story) : Prop :=
  ∀ phase pointer, story.workflow.pointer phase = some pointer →
    ∃ owned, mapGet story.plans phase = some owned ∧ planOf pointer = some owned.record

/-- Decisions are added, and no authority changes. -/
structure Grows (before after : Story) : Prop where
  amendments : before.workflow.amendments <+: after.workflow.amendments
  authorities : ∀ phase, evidenceOwnerAuthorities after.workflow phase
    = evidenceOwnerAuthorities before.workflow phase

theorem Grows.refl {story : Story} : Grows story story := ⟨List.prefix_refl _, fun _ => rfl⟩

theorem Grows.trans {story story' story'' : Story} (h : Grows story story') (h' : Grows story' story'') :
    Grows story story'' :=
  ⟨h.amendments.trans h'.amendments, fun phase => (h'.authorities phase).trans (h.authorities phase)⟩

/-- A correction keeps what the plans are bound to. -/
theorem corrected_linked {story story' : Story} {added : List Value} (h : Linked planOf story)
    (hphases : story'.workflow.phases = story.workflow.phases)
    (hamendments : story'.workflow.amendments = story.workflow.amendments ++ added)
    (hplans : ∀ phase owned, mapGet story.plans phase = some owned →
      ∃ owned', mapGet story'.plans phase = some owned' ∧ owned'.record = owned.record) :
    Grows story story' ∧ Linked planOf story' := by
  refine ⟨⟨⟨added, hamendments.symm⟩, fun phase => ?_⟩, fun phase pointer hpointer => ?_⟩
  · unfold evidenceOwnerAuthorities
    rw [hphases]
  · unfold Workflow.pointer at hpointer
    rw [hphases] at hpointer
    obtain ⟨owned, howned, hplan⟩ := h phase pointer hpointer
    obtain ⟨owned', howned', hrecord⟩ := hplans phase owned howned
    exact ⟨owned', howned', hrecord ▸ hplan⟩

theorem record_of_validated {plans : List (Text × Owned)} {phase : Text} {owned : Owned} {plan : Plan}
    (howned : mapGet plans phase = some owned) (other : Text) (bound : Owned)
    (h : mapGet plans other = some bound) :
    ∃ owned', mapGet (mapSet plans phase { owned with validated := plan }) other = some owned'
      ∧ owned'.record = bound.record := by
  by_cases heq : other = phase
  · subst heq
    obtain rfl := Option.some.inj (howned.symm.trans h)
    exact ⟨_, mapGet_mapSet_self _ _ _, rfl⟩
  · exact ⟨bound, (mapGet_mapSet_of_ne heq).trans h, rfl⟩

/-- A map is bound under the digest that it is read by. -/
theorem bindMap_linked {story : Story} {phase mapSha256 : Text} {record : Plan}
    (h : Linked planOf story) (hplan : planOf mapSha256 = some record) :
    Grows story ⟨bindMap story.workflow phase mapSha256, mapSet story.plans phase ⟨record, record⟩⟩
      ∧ Linked planOf
        ⟨bindMap story.workflow phase mapSha256, mapSet story.plans phase ⟨record, record⟩⟩ := by
  refine ⟨⟨List.prefix_refl _, authorities_bindMap _ _ _⟩, fun other pointer hpointer => ?_⟩
  by_cases heq : other = phase
  · subst heq
    refine ⟨_, mapGet_mapSet_self _ _ _, ?_⟩
    have hself : pointer = mapSha256 := by
      obtain ⟨state, hstate, hplanned⟩ := Option.bind_eq_some_iff.mp hpointer
      rw [mapGet_bindMap] at hstate
      obtain ⟨_, -, rfl⟩ := Option.map_eq_some_iff.mp hstate
      rw [if_pos rfl] at hplanned
      exact (Option.some.inj hplanned).symm
    exact hself ▸ hplan
  · rw [pointer_bindMap heq] at hpointer
    obtain ⟨owned, howned, hread⟩ := h other pointer hpointer
    exact ⟨owned, (mapGet_mapSet_of_ne heq).trans howned, hread⟩

/-- **A decision adds to the Story**, and leaves plans bound to what is read. -/
theorem attempt_linked {story : Story} {action : Action} (h : Linked planOf story)
    (hbound : ∀ phase record mapSha256, action = .approve phase record mapSha256 →
      planOf mapSha256 = some record) :
    Grows story (attempt sha toUpperCase isUuid isDatetime itemRoot story action).1
      ∧ Linked planOf (attempt sha toUpperCase isUuid isDatetime itemRoot story action).1 := by
  cases action with
  | approve phase record mapSha256 =>
      dsimp only [attempt]
      split
      · exact bindMap_linked h (hbound phase record mapSha256 rfl)
      · exact ⟨.refl, h⟩
  | rows phase normalizeRow validate request =>
      dsimp only [attempt]
      split
      · exact ⟨.refl, h⟩
      next owned howned =>
      split
      · exact ⟨.refl, h⟩
      next shown hshown =>
      obtain ⟨added, hphases, hamendments⟩ := recordPlanRowCorrection_grows sha toUpperCase
        isUuid isDatetime normalizeRow validate story.workflow shown request
      generalize recordPlanRowCorrection sha toUpperCase isUuid isDatetime normalizeRow validate
        story.workflow shown request = corrected at hphases hamendments
      obtain ⟨workflow, result⟩ := corrected
      dsimp only
      split
      · exact corrected_linked h hphases hamendments fun other bound hother => ⟨bound, hother, rfl⟩
      · exact corrected_linked h hphases hamendments (record_of_validated howned)
  | evidence phase validate request =>
      dsimp only [attempt]
      split
      · exact ⟨.refl, h⟩
      next owned howned =>
      split
      · exact ⟨.refl, h⟩
      next shown hshown =>
      obtain ⟨added, hphases, hamendments⟩ := recordEvidenceCorrection_grows sha toUpperCase
        isDatetime itemRoot validate story.workflow shown request
      generalize recordEvidenceCorrection sha toUpperCase isDatetime validate story.workflow itemRoot
        shown request = corrected at hphases hamendments
      obtain ⟨workflow, result⟩ := corrected
      dsimp only
      split
      · exact corrected_linked h hphases hamendments fun other bound hother => ⟨bound, hother, rfl⟩
      · exact corrected_linked h hphases hamendments (record_of_validated howned)

/-! ## What is in force -/

/-- The plans of a phase in two states have the same row and contract of a criterion. -/
def SameFor (clauseId : Text) : Option Plan → Option Plan → Prop
  | none, none => True
  | some before, some after => Untouched clauseId before after ∧ after.phase = before.phase
  | _, _ => False

theorem inForce_congr {order : List Text} {before after : Text → Option Plan} {clauseId : Text}
    (h : ∀ phase ∈ order, SameFor clauseId (before phase) (after phase)) :
    obligationsOf (order.filterMap after) clauseId = obligationsOf (order.filterMap before) clauseId ∧
      contractFor (mergedVerificationContracts (order.filterMap after)) clauseId
        = contractFor (mergedVerificationContracts (order.filterMap before)) clauseId := by
  induction order with
  | nil => exact ⟨rfl, rfl⟩
  | cons phase rest ih =>
      obtain ⟨hphase, hrest⟩ := List.forall_mem_cons.mp h
      obtain ⟨hrows, hcontracts⟩ := ih hrest
      cases hbefore : before phase with
      | none =>
          cases hafter : after phase with
          | none =>
              rw [List.filterMap_cons_none hbefore, List.filterMap_cons_none hafter]
              exact ⟨hrows, hcontracts⟩
          | some plan =>
              rw [hbefore, hafter] at hphase
              exact hphase.elim
      | some plan =>
          cases hafter : after phase with
          | none =>
              rw [hbefore, hafter] at hphase
              exact hphase.elim
          | some plan' =>
              rw [hbefore, hafter] at hphase
              obtain ⟨⟨hrow, hcontract⟩, hname⟩ := hphase
              rw [List.filterMap_cons_some hbefore, List.filterMap_cons_some hafter]
              constructor
              · unfold obligationsOf at hrows ⊢
                rw [List.filterMap_cons, List.filterMap_cons, hrow, hname, hrows]
              · unfold mergedVerificationContracts at hcontracts ⊢
                rw [List.flatMap_cons, List.flatMap_cons, contractFor_append, contractFor_append,
                  hcontract, hcontracts]

/-- What the readers of a bound plan are shown. -/
theorem boundPlan_of_inv {s : WitnessState} {phase pointer : Text} {owned : Owned}
    (hinv : Inv sha toUpperCase isUuid isDatetime itemRoot s.story)
    (hpointer : s.story.workflow.pointer phase = some pointer)
    (howned : mapGet s.story.plans phase = some owned) (hplan : planOf pointer = some owned.record) :
    boundPlan sha toUpperCase isUuid isDatetime itemRoot planOf s phase = some owned.validated := by
  refine Option.bind_eq_some_iff.mpr ⟨pointer, hpointer, Option.bind_eq_some_iff.mpr ⟨_, hplan, ?_⟩⟩
  rw [hinv.shown howned]
  rfl

/-- The contracts in force were accepted. -/
theorem accepted_of_inForce (hupper : ∀ t, isAcId t = true → toUpperCase t = t) {s : WitnessState}
    {clauseId : Text} {contract : Contract}
    (hinv : Inv sha toUpperCase isUuid isDatetime itemRoot s.story) (hlinked : Linked planOf s.story)
    (h : contractInForce sha toUpperCase isUuid isDatetime itemRoot planOf s clauseId = some contract) :
    Accepted contract := by
  obtain ⟨hmem, -⟩ := contractFor_mem h
  obtain ⟨plan, hplan, hcontract⟩ := List.mem_flatMap.mp hmem
  obtain ⟨phase, -, hbound⟩ := List.mem_filterMap.mp hplan
  obtain ⟨pointer, hpointer, -⟩ := Option.bind_eq_some_iff.mp hbound
  obtain ⟨owned, howned, hread⟩ := hlinked phase pointer hpointer
  rw [boundPlan_of_inv hinv hpointer howned hread] at hbound
  cases hbound
  have hok := hinv.owned phase owned howned
  exact (accepted_of_normalize ((hok.corrects hupper).contracts hok.contracts)).1 contract hcontract

/-- **What is in force for a criterion** is the same in a later state with the same
context, where no amendment in between touched the criterion. -/
theorem inForce_of_untouched (hupper : ∀ t, isAcId t = true → toUpperCase t = t)
    {made s : WitnessState} {clauseId : Text}
    (hmade : Inv sha toUpperCase isUuid isDatetime itemRoot made.story) (hlinked : Linked planOf made.story)
    (hinv : Inv sha toUpperCase isUuid isDatetime itemRoot s.story) (hlinked' : Linked planOf s.story)
    (hgrows : Grows made.story s.story) (horder : s.phaseOrder = made.phaseOrder)
    (hcontext : s.context = made.context)
    (huntouched : ∀ value ∈ s.story.workflow.amendments.drop made.story.workflow.amendments.length,
      touches isUuid isDatetime value clauseId = false) :
    rowsInForce sha toUpperCase isUuid isDatetime itemRoot planOf s clauseId
        = rowsInForce sha toUpperCase isUuid isDatetime itemRoot planOf made clauseId ∧
      contractInForce sha toUpperCase isUuid isDatetime itemRoot planOf s clauseId
        = contractInForce sha toUpperCase isUuid isDatetime itemRoot planOf made clauseId := by
  have hpointers : ∀ phase ∈ made.phaseOrder,
      s.story.workflow.pointer phase = made.story.workflow.pointer phase := by
    have hphases := congrArg WitnessContext.phases hcontext
    rw [WitnessState.context, WitnessState.context, horder] at hphases
    intro phase hmem
    exact congrArg PhaseContext.plan (List.map_inj_left.mp hphases phase hmem)
  unfold rowsInForce contractInForce plansInForce
  rw [horder]
  refine inForce_congr fun phase hphase => ?_
  have hsame := hpointers phase hphase
  cases hpointer : made.story.workflow.pointer phase with
  | none =>
      have hnone : boundPlan sha toUpperCase isUuid isDatetime itemRoot planOf made phase = none := by
        rw [boundPlan, hpointer]
        rfl
      have hnone' : boundPlan sha toUpperCase isUuid isDatetime itemRoot planOf s phase = none := by
        rw [boundPlan, hsame, hpointer]
        rfl
      rw [hnone, hnone']
      trivial
  | some pointer =>
      obtain ⟨owned, howned, hread⟩ := hlinked phase pointer hpointer
      obtain ⟨owned', howned', hread'⟩ := hlinked' phase pointer (hsame.trans hpointer)
      rw [boundPlan_of_inv hmade hpointer howned hread,
        boundPlan_of_inv hinv (hsame.trans hpointer) howned' hread']
      have hrecord : owned'.record = owned.record := Option.some.inj (hread'.symm.trans hread)
      have hok := hmade.owned phase owned howned
      have hcorrects := hok.corrects hupper
      -- the later readers apply the earlier amendments first, with the same result
      obtain ⟨rest, hrest⟩ := hgrows.amendments
      have hreplay := (hinv.owned phase owned' howned').replay none List.mem_cons_self
      have hdirect := hok.replay none List.mem_cons_self
      rw [hrecord, ← hrest, applyAmendments_append,
        applyAmendments_congr hupper hgrows.authorities (hok.phase.symm ▸ hsame)] at hreplay
      rw [hdirect] at hreplay
      change applyAmendments sha toUpperCase isUuid isDatetime s.story.workflow none owned.validated rest
        = .ok owned'.validated at hreplay
      rw [← hrest, List.drop_left] at huntouched
      exact ⟨untouched_applyAmendments hupper (hcorrects.contracts hok.contracts) huntouched hreplay,
        (corrects_applyAmendments hupper hreplay).phase⟩

/-! ## Runs -/

section Run

variable {past : List (WitnessState × WitnessAction)} {s s' start : WitnessState}

/-- Every record of a run was made in an earlier state of it. -/
structure Traced (sha : PlannedClaim → Text) (toUpperCase : Text → Text)
    (isUuid isDatetime : Text → Bool) (itemRoot : Text) (planOf : Text → Option Plan)
    (recordSha256 : Value → Text) (past : List (WitnessState × WitnessAction)) (s : WitnessState) :
    Prop where
  inv : Inv sha toUpperCase isUuid isDatetime itemRoot s.story
  linked : Linked planOf s.story
  records : ∀ n record, s.witnessRecords[n]? = some record → ∃ made, madeIn past n = some made ∧
    Inv sha toUpperCase isUuid isDatetime itemRoot made.story ∧ Linked planOf made.story ∧
    Grows made.story s.story ∧ s.phaseOrder = made.phaseOrder ∧
    RecordedIn sha toUpperCase isUuid isDatetime itemRoot planOf recordSha256 made record

/-- A step that records nothing keeps what the records were made in. -/
theorem Traced.of_no_record {action : WitnessAction}
    (h : Traced sha toUpperCase isUuid isDatetime itemRoot planOf recordSha256 past s)
    (haction : ∀ request, action ≠ .inspect request)
    (hinv : Inv sha toUpperCase isUuid isDatetime itemRoot s'.story) (hlinked : Linked planOf s'.story)
    (hgrows : Grows s.story s'.story) (horder : s'.phaseOrder = s.phaseOrder)
    (hrecords : s'.witnessRecords = s.witnessRecords) :
    Traced sha toUpperCase isUuid isDatetime itemRoot planOf recordSha256 ((s, action) :: past) s' := by
  refine ⟨hinv, hlinked, fun n record hrecord => ?_⟩
  rw [hrecords] at hrecord
  obtain ⟨made, hmade, hmadeInv, hmadeLinked, hmadeGrows, hmadeOrder, hspec⟩ := h.records n record hrecord
  refine ⟨made, ?_, hmadeInv, hmadeLinked, hmadeGrows.trans hgrows, horder.trans hmadeOrder, hspec⟩
  cases action with
  | inspect request => exact absurd rfl (haction request)
  | decide | specify | deliver | write => exact hmade

/-- **Each step keeps** what the records were made in. -/
theorem Traced.step (hupper : ∀ t, isAcId t = true → toUpperCase t = t) {action : WitnessAction}
    (h : Traced sha toUpperCase isUuid isDatetime itemRoot planOf recordSha256 past s)
    (hadmitted : action.Admitted toUpperCase planOf s)
    (hstep : witnessStep sha toUpperCase isUuid isDatetime itemRoot planOf recordSha256 s action = .ok s') :
    Traced sha toUpperCase isUuid isDatetime itemRoot planOf recordSha256 ((s, action) :: past) s' := by
  cases action with
  | decide action =>
      cases hstep
      have hgoverned : Admitted toUpperCase s.story action := by
        cases action with
        | approve => trivial
        | rows | evidence => exact hadmitted
      obtain ⟨hgrows, hlinked⟩ : Grows s.story
            (attempt sha toUpperCase isUuid isDatetime itemRoot s.story action).1
          ∧ Linked planOf (attempt sha toUpperCase isUuid isDatetime itemRoot s.story action).1 := by
        refine attempt_linked h.linked fun phase record mapSha256 heq => ?_
        subst heq
        exact hadmitted
      exact h.of_no_record nofun (h.inv.attempted hupper hgoverned).1 hlinked hgrows rfl rfl
  | specify phase specification =>
      cases hstep
      exact h.of_no_record nofun h.inv h.linked .refl rfl rfl
  | deliver phase delivery =>
      cases hstep
      exact h.of_no_record nofun h.inv h.linked .refl rfl rfl
  | write file sha256 =>
      cases hstep
      exact h.of_no_record nofun h.inv h.linked .refl rfl rfl
  | inspect request =>
      obtain ⟨recorded, hrecorded, hstep⟩ := bind_eq_ok_iff.mp hstep
      cases hstep
      refine ⟨h.inv, h.linked, fun n record hrecord => ?_⟩
      rcases Nat.lt_trichotomy n s.witnessRecords.length with hlt | rfl | hgt
      · rw [List.getElem?_append_left hlt] at hrecord
        obtain ⟨made, hmade, hrest⟩ := h.records n record hrecord
        exact ⟨made, (if_neg (Nat.ne_of_gt hlt)).trans hmade, hrest⟩
      · rw [List.getElem?_append_right (Nat.le_refl _), Nat.sub_self] at hrecord
        cases hrecord
        exact ⟨s, if_pos rfl, h.inv, h.linked, .refl, rfl, recordWitness_spec hrecorded⟩
      · rw [List.getElem?_eq_none (by simpa using hgt)] at hrecord
        cases hrecord

theorem traced (hupper : ∀ t, isAcId t = true → toUpperCase t = t) (hstart : start.Fresh)
    (hrun : GuardedRun (witnessStep sha toUpperCase isUuid isDatetime itemRoot planOf recordSha256) start
      (WitnessAction.Admitted toUpperCase planOf) past s) :
    Traced sha toUpperCase isUuid isDatetime itemRoot planOf recordSha256 past s := by
  refine hrun.run.invariant
    (Traced sha toUpperCase isUuid isDatetime itemRoot planOf recordSha256) _ hrun.guarded ?_
    fun h ha hs => h.step hupper ha hs
  refine ⟨hstart.story.inv, fun phase pointer hpointer => ?_, fun n record hrecord => ?_⟩
  · rw [hstart.unbound phase] at hpointer
    cases hpointer
  · rw [hstart.records] at hrecord
    cases hrecord

/-! ## The latest records -/

/-- A latest record stands last of those of its slot. -/
theorem latestAt_of_mem {records : List WitnessRecord} {record : WitnessRecord}
    (h : record ∈ latestRecords records) : ∃ n, LatestAt records n record := by
  obtain ⟨key, -, hfind⟩ := List.mem_filterMap.mp h
  obtain ⟨hkey, later, earlier, hsplit, hlater⟩ := List.find?_eq_some_iff_append.mp hfind
  have hrecords : records = earlier.reverse ++ record :: later.reverse := by
    rw [← List.reverse_reverse records, hsplit, List.reverse_append, List.reverse_cons,
      List.append_assoc, List.singleton_append]
  refine ⟨earlier.reverse.length, ?_, fun other hother hsame => ?_⟩
  · rw [hrecords, List.getElem?_append_right (Nat.le_refl _), Nat.sub_self]
    rfl
  · rw [hrecords, List.drop_append, List.drop_eq_nil_of_le (Nat.le_succ _), List.nil_append,
      Nat.add_sub_cancel_left] at hother
    have hnot := hlater other (List.mem_reverse.mp hother)
    have hequal : other.key = record.key := by
      unfold WitnessRecord.key
      rw [hsame.1, hsame.2]
    rw [hequal] at hnot
    simp only [decide_eq_true_eq] at hkey
    simp [hkey] at hnot

theorem nullableText_inj {a b : Option Text} (h : nullableText a = nullableText b) : a = b := by
  cases a with
  | none =>
      cases b with
      | none => rfl
      | some _ => cases h
  | some _ =>
      cases b with
      | none => cases h
      | some _ => exact congrArg some (Value.str.inj h)

theorem candidateValue_inj {a b : Option Candidate} (h : candidateValue a = candidateValue b) : a = b := by
  cases a with
  | none =>
      cases b with
      | none => rfl
      | some _ => cases h
  | some a =>
      cases b with
      | none => cases h
      | some b =>
          obtain ⟨generation, _, commit, source, tests⟩ := a
          obtain ⟨generation', _, commit', source', tests'⟩ := b
          simp only [candidateValue, Candidate.toValue, Value.obj.injEq, List.cons.injEq, Prod.mk.injEq,
            true_and, and_true, Value.num.injEq] at h
          obtain ⟨rfl, hcommit, hsource, htests⟩ := h
          obtain rfl := nullableText_inj hcommit
          obtain rfl := nullableText_inj hsource
          obtain rfl := nullableText_inj htests
          rfl

/-- A context is known by what its digest is taken of. -/
theorem context_toValue_inj {a b : WitnessContext} (h : a.toValue = b.toValue) : a = b := by
  obtain ⟨workId, phases⟩ := a
  obtain ⟨workId', phases'⟩ := b
  simp only [WitnessContext.toValue, Value.obj.injEq, List.cons.injEq, Prod.mk.injEq,
    true_and, and_true, Value.arr.injEq] at h
  obtain rfl := nullableText_inj h.1
  have hphase : Function.Injective PhaseContext.toValue := by
    rintro ⟨id, specification, plan, candidate⟩ ⟨id', specification', plan', candidate'⟩ h
    simp only [PhaseContext.toValue, Value.obj.injEq, List.cons.injEq, Prod.mk.injEq,
      true_and, and_true, Value.str.injEq] at h
    obtain ⟨rfl, hspecification, hplan, hcandidate⟩ := h
    obtain rfl := nullableText_inj hspecification
    obtain rfl := nullableText_inj hplan
    obtain rfl := candidateValue_inj hcandidate
    rfl
  obtain rfl := List.map_injective_iff.mpr hphase h.2
  rfl

theorem recordStatus_met {current : List (Text × Option Text)} {binding : Text} {record : WitnessRecord}
    (h : recordStatus current binding record = .met) :
    (∀ bound, record.contextBinding = some bound → bound ≠ [] → bound = binding) ∧
      mapGet current record.file = some (some record.sha256) ∧ record.outcome = .met := by
  unfold recordStatus at h
  split at h
  · cases h
  next hbinding =>
  split at h
  · cases h
  next hbytes =>
  split at h
  · cases h
  next houtcome =>
  refine ⟨fun bound hbound hne => ?_, not_not.mp hbytes, not_not.mp houtcome⟩
  by_contra hother
  exact hbinding (by simp [hbound, hne, hother])

/-- What meets a slot is a latest record of it. -/
theorem recordSlotResult_met {clauseId : Text} {slot : Slot} {options : Options}
    (hrecords : options.records = witnessRecordResults recordSha256 s)
    (h : (recordSlotResult clauseId slot options).status = .met) :
    ∃ record ∈ latestRecords s.witnessRecords, record.clauseId = clauseId ∧ record.slot = slot.slot ∧
      record.method = slot.method ∧
      recordStatus s.currentSha256 (witnessContextBinding recordSha256 s) record = .met := by
  unfold recordSlotResult at h
  dsimp only at h
  cases hfind : options.records.find? fun r =>
      decide (r.clauseId = clauseId) && decide (r.slot = slot.slot) && decide (r.method = slot.method) with
  | none =>
      rw [hfind] at h
      dsimp only [Option.map_none] at h
      split at h <;> cases h
  | some found =>
      have hmem := List.mem_of_find?_eq_some hfind
      rw [hrecords] at hmem
      obtain ⟨record, hlatest, rfl⟩ := List.mem_map.mp hmem
      have hsame := List.find?_some hfind
      simp only [Bool.and_eq_true, decide_eq_true_eq] at hsame
      refine ⟨record, hlatest, hsame.1.1, hsame.1.2, hsame.2, ?_⟩
      rw [hfind, Option.map_some] at h
      have hstatus : (recordResult s.currentSha256 (witnessContextBinding recordSha256 s) record).status
          = recordStatus s.currentSha256 (witnessContextBinding recordSha256 s) record := rfl
      rw [hstatus] at h
      split at h
      · next hmet => exact Option.some.inj hmet
      · cases h
      · cases h
      · next hnone => cases hnone

/-- The slot of a contract that is no test is one of a contract in force. -/
theorem stated_of_record_slot {clauseId : Text} {contracts : List Contract} {claim : Option PlannedClaim}
    {effective : Effective} {slot : Slot}
    (h : effectiveContract clauseId contracts claim = some effective)
    (hslot : slot ∈ effective.contract.slots)
    (hmethod : slot.method ≠ .test) : contractFor contracts clauseId = some effective.contract := by
  unfold effectiveContract at h
  split at h
  · next stated hstated =>
      cases h
      exact hstated
  · split at h
    · cases h
    · cases h
      rw [defaultContract, List.mem_singleton] at hslot
      exact absurd (congrArg Slot.method hslot) hmethod

/-- A record that meets a slot witnesses it, where no criterion was corrected under a
record. -/
theorem Traced.exact (hupper : ∀ t, isAcId t = true → toUpperCase t = t)
    (hsha256 : ∀ a b : WitnessContext, recordSha256 a.toValue = recordSha256 b.toValue →
      a.toValue = b.toValue)
    (h : Traced sha toUpperCase isUuid isDatetime itemRoot planOf recordSha256 past s)
    (hundisturbed : Undisturbed isUuid isDatetime recordSha256 past s) :
    Exact sha toUpperCase isUuid isDatetime itemRoot planOf recordSha256 past s := by
  intro instances clauseId claim effective entries options i slot result heffective hrecords hslot
    hmethod hresult hmet
  have hmem := List.mem_of_getElem? hslot
  have hstated : contractInForce sha toUpperCase isUuid isDatetime itemRoot planOf s clauseId
      = some effective.contract := stated_of_record_slot heffective hmem hmethod
  -- the result is that of a record
  change (effective.contract.slots.map (slotResult instances clauseId effective.contract entries
    options))[i]? = some result at hresult
  rw [List.getElem?_map, hslot, Option.map_some, slotResult, if_neg hmethod] at hresult
  obtain rfl := Option.some.inj hresult
  obtain ⟨record, hlatest, hclause, hname, hkind, hstatus⟩ := recordSlotResult_met hrecords hmet
  obtain ⟨n, hlatestAt⟩ := latestAt_of_mem hlatest
  obtain ⟨made, hmade, hmadeInv, hmadeLinked, hgrows, horder, hspec⟩ := h.records n record hlatestAt.here
  obtain ⟨hbinding, hbytes, houtcome⟩ := recordStatus_met hstatus
  -- it was made in the present context
  have hbound : witnessContextBinding recordSha256 made = witnessContextBinding recordSha256 s :=
    hbinding _ hspec.context (by simp [witnessContextBinding, show js "sha256:" ≠ [] by decide])
  have hcontext : s.context = made.context :=
    context_toValue_inj (hsha256 _ _ (List.append_cancel_left hbound.symm))
  have huntouched := hundisturbed n record made hlatestAt houtcome (hspec.context.trans (by rw [hbound]))
    hmade
  rw [hclause] at huntouched
  obtain ⟨hrows, hcontract⟩ := inForce_of_untouched hupper hmadeInv hmadeLinked h.inv h.linked hgrows
    horder hcontext huntouched
  -- so the slot that it was made for is the slot that it meets
  obtain ⟨contract, recorded, hfound, hrecorded, hrecordedName, -, hpath, htarget⟩ := hspec.slot
  rw [hclause, ← hcontract, hstated] at hfound
  obtain rfl := Option.some.inj hfound
  have haccepted := accepted_of_inForce hupper h.inv h.linked hstated
  obtain rfl : recorded = slot :=
    List.inj_on_of_nodup_map haccepted.names hrecorded hmem (hrecordedName.trans hname)
  have hvalid := haccepted.slots recorded hmem
  simp only [Slot.valid, Bool.and_eq_true] at hvalid
  refine ⟨n, record, made, hlatestAt, hmade, hclause, hname, hkind, fun hinspection => ?_,
    fun hvisual => ?_, hspec.answers houtcome, hspec.bytes, hbytes, hrows, hcontract ▸ hstated, hcontext⟩
  · have hfile := hpath hinspection
    cases hwitness : recorded.witness with
    | path file =>
        rw [hwitness] at hfile
        rw [Option.some.inj hfile]
    | paths | target =>
        rw [hwitness] at hfile
        cases hfile
  · have hfits := hvalid.2
    rw [hvisual] at hfits
    cases hwitness : recorded.witness with
    | target target => exact ⟨target, rfl, htarget hvisual target hwitness⟩
    | path | paths =>
        rw [hwitness] at hfits
        cases hfits

/-- **A record witnesses what was inspected.**  In every run in which no criterion is
corrected under a record, each record that meets a slot inspected what the slot names,
and its row, its contract and the candidate are those in force. -/
theorem met_witnessed (hupper : ∀ t, isAcId t = true → toUpperCase t = t)
    (hsha256 : ∀ a b : WitnessContext, recordSha256 a.toValue = recordSha256 b.toValue →
      a.toValue = b.toValue) (hstart : start.Fresh)
    (hrun : GuardedRun (witnessStep sha toUpperCase isUuid isDatetime itemRoot planOf recordSha256) start
      (WitnessAction.Admitted toUpperCase planOf) past s)
    (hundisturbed : Throughout (Undisturbed isUuid isDatetime recordSha256) past s) :
    Throughout (Exact sha toUpperCase isUuid isDatetime itemRoot planOf recordSha256) past s :=
  hrun.throughout hundisturbed fun hrun h => (traced hupper hstart hrun).exact hupper hsha256 h

end Run

end Proofs

/-! ### An inspection of a retained file -/

section Sample

theorem kept_candidate (candidate : Candidate) : Kept candidate.toValue := by
  refine kept_fields [js "generation", js "commit", js "source", js "tests"] rfl (by decide)
    (by decide +kernel) ?_
  simp only [List.forall_mem_cons, List.not_mem_nil, false_implies, implies_true, and_true]
  exact ⟨kept_generation candidate.positive, kept_nullable _, kept_nullable _, kept_nullable _⟩

theorem kept_context (context : WitnessContext) : Kept context.toValue := by
  refine kept_fields [js "workId", js "phases"] rfl (by decide) (by decide +kernel) ?_
  simp only [List.forall_mem_cons, List.not_mem_nil, false_implies, implies_true, and_true]
  refine ⟨kept_nullable _, kept_arr (List.forall_mem_map.mpr fun phase _ => ?_)⟩
  refine kept_fields [js "id", js "specification", js "plan", js "candidate"] rfl (by decide)
    (by decide +kernel) ?_
  simp only [List.forall_mem_cons, List.not_mem_nil, false_implies, implies_true, and_true]
  refine ⟨kept_str _, kept_nullable _, kept_nullable _, ?_⟩
  cases phase.candidate with
  | none => exact kept_leaf rfl trivial
  | some candidate => exact kept_candidate candidate

/-- The text of a context in the place of its digest: no two contexts have the same. -/
theorem stringify_context_inj (a b : WitnessContext) (h : stringify [] a.toValue = stringify [] b.toValue) :
    a.toValue = b.toValue := by
  have hread : ∀ context : WitnessContext,
      parse (stringify [] context.toValue ++ []) = some context.toValue := by
    intro context
    obtain ⟨hproper, hspelled, hordered⟩ := kept_context context
    have hnone : ∀ u ∈ ([] : Text), isSpace u = true := fun _ hu => absurd hu List.not_mem_nil
    rw [parse_stringify hnone hproper hspelled hnone, hordered]
  have hsame := hread a
  rw [h, hread b] at hsame
  exact (Option.some.inj hsame).symm

def sampleFile : Text := js "items/evidence/a.txt"

def sampleOther : Text := js "items/evidence/b.txt"

def sampleDigest : Text := js "sha256:" ++ List.replicate 64 0x61

/-- The plan has a criterion inspected in one file. -/
def inspectedPlan : Plan :=
  { samplePlan with
    verificationContracts := some [⟨js "A:AC-001", .all, none,
      [⟨js "retained-evidence", .inspection, .primary, .path sampleFile, some .sourceBound⟩]⟩] }

def inspectedPlanOf (sha256 : Text) : Option Plan := if sha256 = sampleMap then some inspectedPlan else none

/-- A Story whose plan is not approved yet. -/
def inspectedStart : WitnessState where
  workId := some (js "A")
  phaseOrder := [js "plan"]
  story := sampleStart
  phases := [(js "plan", ⟨none, none⟩)]
  witnessRecords := []
  currentSha256 := [(sampleFile, some sampleDigest), (sampleOther, some sampleDigest)]

def inspectedStep : WitnessState → WitnessAction → Except Failure WitnessState :=
  witnessStep sampleSha id (fun _ => true) (fun _ => true) (js "items") inspectedPlanOf (stringify [])

def inspectedApproval : WitnessAction := .decide (.approve (js "plan") inspectedPlan sampleMap)

def inspectedApproved : WitnessState :=
  { inspectedStart with
    story := (attempt sampleSha id (fun _ => true) (fun _ => true) (js "items") sampleStart
      (.approve (js "plan") inspectedPlan sampleMap)).1 }

def inspectedRequest : WitnessRequest where
  clauseId := js "A:AC-001"
  slot := js "retained-evidence"
  file := sampleFile
  answers := witnessChecklist.map fun item => (item, js "yes")
  reason := js "The file shows it."
  actor := js "lead"
  authorityGroup := js "leads"
  identityAssurance := none
  date := js "2026"

/-- What is recorded of the inspection. -/
def inspectedRecord : WitnessRecord where
  id := js "WIT-001"
  clauseId := js "A:AC-001"
  slot := js "retained-evidence"
  method := .inspection
  file := sampleFile
  sha256 := sampleDigest
  contextBinding := some (witnessContextBinding (stringify []) inspectedApproved)
  target := none
  checklist := witnessChecklist.map fun item => (item, js "yes")
  outcome := .met
  reason := js "The file shows it."
  actor := js "lead"
  authorityGroup := js "leads"
  identityAssurance := none
  date := js "2026"

def inspectedState : WitnessState := { inspectedApproved with witnessRecords := [inspectedRecord] }

/-- The criterion is moved to another file, to be inspected in the same way. -/
def inspectedCorrection : Action :=
  .evidence (js "plan") (fun _ => .ok ())
    { id := js "PEA-" ++ List.replicate 24 0x61
      phaseId := js "plan"
      clauseId := js "A:AC-001"
      evidencePath := sampleOther
      method := .inspection
      reason := js "The other file is the right one."
      reviewedSha256 := List.replicate 64 0x61
      reviewedSize := 1
      actor := js "lead"
      authorityGroup := js "leads"
      authorizationId := js "1"
      reviewAssurance := .terminal
      date := js "2026"
      recordPath := js "items/appeals/1.json"
      surroundings := .ok () }

def inspectedCorrected : WitnessState :=
  { inspectedState with
    story := (attempt sampleSha id (fun _ => true) (fun _ => true) (js "items") inspectedState.story
      inspectedCorrection).1 }

theorem recordWitness_inspected :
    recordWitness sampleSha id (fun _ => true) (fun _ => true) (js "items") inspectedPlanOf (stringify [])
      inspectedApproved inspectedRequest = .ok inspectedRecord := by
  decide +kernel

theorem inspected_run :
    GuardedRun inspectedStep inspectedStart (WitnessAction.Admitted id inspectedPlanOf)
      [(inspectedApproved, .inspect inspectedRequest), (inspectedStart, inspectedApproval)]
      inspectedState := by
  have hinspect : inspectedStep inspectedApproved (.inspect inspectedRequest) = .ok inspectedState := by
    rw [inspectedStep, witnessStep, recordWitness_inspected]
    rfl
  have happroved : GuardedRun inspectedStep inspectedStart (WitnessAction.Admitted id inspectedPlanOf)
      [(inspectedStart, inspectedApproval)] inspectedApproved :=
    GuardedRun.empty.next rfl (show inspectedPlanOf sampleMap = some inspectedPlan by decide +kernel)
  exact happroved.next hinspect trivial

/-- Where nothing was amended, no record is disturbed. -/
theorem undisturbed_of_no_amendment {isUuid isDatetime : Text → Bool} {recordSha256 : Value → Text}
    {past : List (WitnessState × WitnessAction)} {s : WitnessState}
    (h : s.story.workflow.amendments = []) : Undisturbed isUuid isDatetime recordSha256 past s := by
  intro n record made _ _ _ _ value hvalue
  rw [h, List.drop_nil] at hvalue
  cases hvalue

theorem inspectedStart_fresh : inspectedStart.Fresh where
  story := sampleStart_fresh
  unbound phase := by
    refine Option.bind_eq_none_iff.mpr fun state hstate => ?_
    obtain rfl := (Prod.mk.inj (List.mem_singleton.mp (mem_of_mapGet hstate))).2
    rfl
  records := rfl

def inspectedOptions (s : WitnessState) : Options :=
  ⟨true, true, .none, fun _ => none, [], witnessRecordResults (stringify []) s, false, none⟩

/-- The inspection meets its slot, and witnesses it. -/
theorem met_witnessed_inspected :
    (contractResult (fun _ _ => false) (js "A:AC-001")
        ⟨js "A:AC-001", .all, none,
          [⟨js "retained-evidence", .inspection, .primary, .path sampleFile, some .sourceBound⟩]⟩ []
        (inspectedOptions inspectedState)).status = .met
      ∧ Throughout (Exact sampleSha id (fun _ => true) (fun _ => true) (js "items") inspectedPlanOf
          (stringify []))
        [(inspectedApproved, .inspect inspectedRequest), (inspectedStart, inspectedApproval)]
        inspectedState :=
  ⟨by decide +kernel, met_witnessed (fun _ _ => rfl) stringify_context_inj inspectedStart_fresh
    inspected_run
    ⟨undisturbed_of_no_amendment (by decide +kernel), undisturbed_of_no_amendment (by decide +kernel),
      undisturbed_of_no_amendment (by decide +kernel)⟩⟩

/-- **A record outlives the correction of its criterion**: the slot has another file,
and the inspection of the first one goes on to meet it. -/
theorem corrected_not_witnessed :
    ∃ past s, GuardedRun inspectedStep inspectedStart (WitnessAction.Admitted id inspectedPlanOf) past s ∧
      ¬ Exact sampleSha id (fun _ => true) (fun _ => true) (js "items") inspectedPlanOf (stringify [])
        past s := by
  have hplans : mapGet inspectedState.story.plans (js "plan") = some ⟨inspectedPlan, inspectedPlan⟩ := by
    decide +kernel
  have hrun : GuardedRun inspectedStep inspectedStart (WitnessAction.Admitted id inspectedPlanOf)
      [(inspectedState, .decide inspectedCorrection), (inspectedApproved, .inspect inspectedRequest),
        (inspectedStart, inspectedApproval)] inspectedCorrected := by
    refine inspected_run.next rfl ⟨by decide +kernel, fun owned howned => ?_⟩
    obtain rfl := Option.some.inj (hplans.symm.trans howned)
    decide +kernel
  refine ⟨_, _, hrun, fun h => ?_⟩
  obtain ⟨n, record, made, hlatest, -, hwitnessed⟩ := h (fun _ _ => false) (js "A:AC-001") none
    ⟨evidenceContract (js "A:AC-001") sampleRow sampleOther .inspection, true⟩ []
    (inspectedOptions inspectedCorrected) 0
    ⟨js "retained-evidence", .inspection, .primary, .path sampleOther, some .sourceBound⟩ _
    (by decide +kernel) rfl rfl (by decide)
    (List.getElem?_map (f := slotResult (fun _ _ => false) (js "A:AC-001")
      (evidenceContract (js "A:AC-001") sampleRow sampleOther .inspection) []
      (inspectedOptions inspectedCorrected))) (by decide +kernel)
  have hfile := hwitnessed.inspected rfl
  have hrecord : record = inspectedRecord :=
    List.mem_singleton.mp (List.mem_of_getElem? hlatest.here)
  rw [hrecord] at hfile
  exact absurd hfile (by decide +kernel)

end Sample

end Verification

end SingularityFlow
