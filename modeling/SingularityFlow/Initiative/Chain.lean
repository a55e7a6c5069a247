/-
# Chains of reviews

A chain asks one authority after another.  A decision is recorded for the step
that is open when it is made, and only a member of the body of that step can
make it.  The records are read twice, once to admit the reviewer and once to
record the decision; both readings see the same decisions, since the operations
on an Initiative come one after another.

`reached_in_order` is about every sequence of attempts, of all operations, from
a state without decisions.  Whatever was invalidated in between, the decisions
that are counted were each recorded when the steps before theirs were satisfied,
and come from as many people as there are decisions.
-/
import SingularityFlow.Initiative.Policy
import SingularityFlow.Initiative.Shape

namespace SingularityFlow

open Ecma

namespace Initiatives

variable {host : Host}

/-! ## The policy of a subject -/

/-- A resolution has one policy for each subject. -/
def Resolution.policy? (resolution : Resolution) (phaseId : Text) (type : SubjectType) (id : Text) :
    Option ApprovalPolicy :=
  match type with
  | .phase => (resolution.phase? phaseId).map PhaseDefinition.bundleApproval
  | .pack => (resolution.packs.find? (·.id = id)).map Pack.approval
  | .output => (resolution.phase? phaseId).bind fun phase =>
      (phase.output? id).map OutputDefinition.approval
  | .check => (resolution.phase? phaseId).bind fun phase =>
      (phase.check? id).map (approvalPolicyForCheck phase)

theorem phaseDefinition_eq_ok {initiative : Initiative} {phaseId : Text}
    {definition : PhaseDefinition} (h : phaseDefinition initiative phaseId = .ok definition) :
    initiative.resolution.phase? phaseId = some definition := by
  unfold phaseDefinition at h
  split at h
  · cases h
  · next hfound =>
      obtain rfl := Except.ok.inj h
      exact hfound

theorem packSubject_eq_ok {initiative : Initiative} {phaseId packId : Text} {target : Target}
    (h : packSubject host initiative phaseId packId = .ok target) :
    initiative.resolution.policy? phaseId target.type target.id = some target.definition := by
  simp only [packSubject] at h
  split at h
  · next pack hpack =>
      simp only [bind_eq_ok_iff] at h
      obtain ⟨_, -, _, -, _, -, h⟩ := h
      obtain rfl := Except.ok.inj h
      have hid : pack.id = packId := by simpa using List.find?_some hpack
      simp only [Resolution.policy?, hid, hpack, Option.map_some]
  · cases h

theorem approvalSubject_eq_ok {initiative : Initiative} {phaseId subject : Text} {bundle : Bundle}
    {target : Target} (h : approvalSubject host initiative phaseId subject bundle = .ok target) :
    initiative.resolution.policy? phaseId target.type target.id = some target.definition := by
  simp only [approvalSubject, bind_eq_ok_iff] at h
  obtain ⟨definition, hdefinition, phase, -, h⟩ := h
  have hphase := phaseDefinition_eq_ok hdefinition
  split at h
  · obtain rfl := Except.ok.inj h
    simp only [Resolution.policy?, hphase, Option.map_some]
  · split at h
    · exact packSubject_eq_ok h
    · split at h
      · simp only [bind_eq_ok_iff, outputDefinition, hdefinition] at h
        obtain ⟨output, ⟨_, hsame, houtput⟩, h⟩ := h
        obtain rfl := Except.ok.inj hsame
        obtain rfl := Except.ok.inj h
        split at houtput
        · cases houtput
        · next found hfound =>
            obtain rfl := Except.ok.inj houtput
            simp only [Resolution.policy?, hphase, Option.bind_some, hfound, Option.map_some]
      · split at h
        · cases h
        · unfold checkSubject at h
          split at h
          · next check _ hcheck _ =>
              obtain rfl := Except.ok.inj h
              simp only [Resolution.policy?, hphase, Option.bind_some, hcheck, Option.map_some]
          · cases h

/-! ## The step that is open -/

/-- A step of a chain is satisfied by decisions. -/
def StepSatisfied (host : Host) (records : List (Entry ApprovalRecord)) (chain : List ChainStep)
    (k : Nat) : Prop :=
  ∀ step, chain[k]? = some step → step.minimum ≤ (signatures host records k).length

section Open

variable {records : List (Entry ApprovalRecord)} {chain : List ChainStep} {policy : ApprovalPolicy}
  {progress : ChainProgress}

theorem stepProgress_getElem? (k : Nat) :
    (stepProgress host records chain)[k]?
      = chain[k]?.map fun step => ⟨k, step, (signatures host records k).length⟩ := by
  rw [stepProgress, List.getElem?_mapIdx]

theorem stepSatisfied_iff {k : Nat} : StepSatisfied host records chain k
    ↔ ∀ step, (stepProgress host records chain)[k]? = some step → step.satisfied = true := by
  rw [stepProgress_getElem?, StepSatisfied]
  cases chain[k]? with
  | none => simp
  | some step => simp [StepProgress.satisfied]

/-- The open step is the first that is not satisfied. -/
theorem open_eq_some (hprogress : approvalChainProgress host policy records = some progress)
    (hchain : policy.chain = some chain) {step : StepProgress} (hopen : progress.open? = some step) :
    chain[step.index]? = some step.step ∧ ∀ j < step.index, StepSatisfied host records chain j := by
  rw [approvalChainProgress, hchain, Option.map_some, Option.some.injEq] at hprogress
  subst hprogress
  obtain ⟨-, i, hi, hget, hbefore⟩ := List.find?_eq_some_iff_getElem.mp hopen
  have hstep : (stepProgress host records chain)[i]? = _ := stepProgress_getElem? i
  rw [List.getElem?_eq_getElem hi, hget] at hstep
  obtain ⟨definition, hdefinition, hsome⟩ := Option.map_eq_some_iff.mp hstep.symm
  subst hsome
  refine ⟨hdefinition, fun j hj => stepSatisfied_iff.mpr fun other hother => ?_⟩
  have hlt : j < (stepProgress host records chain).length := Nat.lt_trans hj hi
  rw [List.getElem?_eq_getElem hlt] at hother
  simpa [Option.some.inj hother] using hbefore j hj

/-- A chain is complete when each of its steps is satisfied. -/
theorem satisfied_of_complete (hprogress : approvalChainProgress host policy records = some progress)
    (hchain : policy.chain = some chain) (hsatisfied : progress.satisfied = true) (k : Nat) :
    StepSatisfied host records chain k := by
  rw [approvalChainProgress, hchain, Option.map_some, Option.some.injEq] at hprogress
  subst hprogress
  rw [ChainProgress.satisfied, Option.isNone_iff_eq_none] at hsatisfied
  refine stepSatisfied_iff.mpr fun step hstep => ?_
  simpa using List.find?_eq_none.mp hsatisfied step (List.mem_of_getElem? hstep)

theorem mem_signatures {k : Nat} {email : Text} : email ∈ signatures host records k
    ↔ email ≠ [] ∧ ∃ entry ∈ records, entry.record.subject.chainStep = some k
      ∧ actorEmail host entry.record.actor = some email := by
  simp only [signatures, mem_distinct, List.mem_filterMap, List.mem_filter, decide_eq_true_eq,
    Option.filter_eq_some_iff]
  constructor
  · rintro ⟨entry, ⟨hmem, hstep⟩, hemail, hne⟩
    exact ⟨by simpa using hne, entry, hmem, hstep, hemail⟩
  · rintro ⟨hne, entry, hmem, hstep, hemail⟩
    exact ⟨entry, ⟨hmem, hstep⟩, hemail, by simpa using hne⟩

end Open

/-! ## What an approval records -/

/-- The subject of a decision. -/
def ApprovalRecord.key (record : ApprovalRecord) : SubjectKey :=
  ⟨record.phase, record.subject.type, record.subject.id, record.subject.sha256⟩

theorem countedFor_iff {key : SubjectKey} {invalidated : List Text} {entry : Entry ApprovalRecord} :
    countedFor key invalidated entry = true
      ↔ entry.record.decision = .approved ∧ entry.record.key = key ∧ entry.sha256 ∉ invalidated := by
  obtain ⟨phaseId, type, id, sha256⟩ := key
  simp only [countedFor, Bool.and_eq_true, decide_eq_true_eq, ApprovalRecord.key, SubjectKey.mk.injEq]
  tauto

/-- The decisions that are counted for a subject. -/
def Workspace.counted (workspace : Workspace) (key : SubjectKey) : List (Entry ApprovalRecord) :=
  activeApprovalRecords workspace.approvals key (invalidatedApprovals workspace.invalidations)

theorem mem_counted {workspace : Workspace} {key : SubjectKey} {entry : Entry ApprovalRecord} :
    entry ∈ workspace.counted key ↔ entry ∈ workspace.approvals
      ∧ entry.record.decision = .approved ∧ entry.record.key = key
      ∧ entry.sha256 ∉ invalidatedApprovals workspace.invalidations := by
  rw [Workspace.counted, activeApprovalRecords, List.mem_filter, countedFor_iff]

/-- A decision for a step of a chain, over the decisions that were counted
before it. -/
structure SignedInOrder (host : Host) (resolution : Resolution) (chain : List ChainStep)
    (records : List (Entry ApprovalRecord)) (entry : Entry ApprovalRecord) (k : Nat) : Prop where
  step : entry.record.subject.chainStep = some k
  earlier : ∀ j < k, StepSatisfied host records chain j
  /-- The reviewer is a member of the body of the step. -/
  member : ∃ definition email, chain[k]? = some definition
    ∧ actorEmail host entry.record.actor = some email
    ∧ email ∈ authorityMembers host resolution definition.authority

/-- The decision that an approval records. -/
structure Decided (host : Host) (workspace : Workspace) (approved : Approved)
    (entry : Entry ApprovalRecord) : Prop where
  counted : approved.counted = workspace.counted entry.record.key ++ [entry]
  approvals : approved.workspace.approvals = append workspace.approvals entry
  invalidations : approved.workspace.invalidations = workspace.invalidations
  decision : entry.record.decision = .approved
  policy : workspace.initiative.resolution.policy? entry.record.phase entry.record.subject.type
    entry.record.subject.id = some approved.target.definition
  fresh : ∀ other ∈ workspace.counted entry.record.key,
    actorEmail host other.record.actor ≠ actorEmail host entry.record.actor
  chained : ∀ chain, approved.target.definition.chain = some chain →
    approved.target.definition.mode ≠ .none → ∃ k, SignedInOrder host
      workspace.initiative.resolution chain (workspace.counted entry.record.key) entry k
  reached : approved.reached = reachedBy host approved.target.definition approved.counted

/-- A reviewer who is admitted is a member of the body of the open step. -/
theorem open_of_admitted {initiative : Initiative} {target : Target} {actor : Actor}
    {prior : List (Entry ApprovalRecord)} {chain : List ChainStep}
    (h : admitApproval host initiative target actor prior = .ok ())
    (hchain : target.definition.chain = some chain) (hmode : target.definition.mode ≠ .none) :
    ∃ progress step email, approvalChainProgress host target.definition prior = some progress
      ∧ progress.open? = some step ∧ actorEmail host actor = some email
      ∧ email ∈ authorityMembers host initiative.resolution step.step.authority := by
  simp only [admitApproval, bind_eq_ok_iff, failIf_eq_ok_iff, not_not] at h
  obtain ⟨_, -, hauthorized⟩ := h
  have hsome : (approvalChainProgress host target.definition prior).isSome := by
    rw [approvalChainProgress, hchain]
    rfl
  obtain ⟨progress, hprogress⟩ := Option.isSome_iff_exists.mp hsome
  rw [isAuthorized, if_neg hmode] at hauthorized
  split at hauthorized
  · cases hauthorized
  · next email hemail =>
      simp only [Option.bind_some, hprogress, Option.any_eq_true, decide_eq_true_eq] at hauthorized
      obtain ⟨step, hopen, hmember⟩ := hauthorized
      exact ⟨progress, step, email, hprogress, hopen, (Option.filter_eq_some_iff.mp hemail).1, hmember⟩

/-- **What an approval records.**  A decision by a new reviewer; where there is a
chain, it is for the open step, and the reviewer is of the body of that step. -/
theorem decided_of_eq_ok {workspace : Workspace} {selected : Option Text} {subject : Text}
    {review : Review} {approved : Approved}
    (h : approveInitiative host workspace selected subject review = .ok approved) :
    ∃ entry, Decided host workspace approved entry := by
  obtain ⟨phase, bundle, target, hadmitted, hrecorded⟩ := admitted_of_eq_ok h
  obtain ⟨entry, hrecorded⟩ := recorded_of_eq_ok hrecorded
  obtain ⟨selfApproval, hrecord⟩ := hrecorded.recorded
  obtain ⟨happrovals, hinvalidated⟩ : bundle.approvals = workspace.approvals
      ∧ bundle.invalidatedApprovals = invalidatedApprovals workspace.invalidations := by
    have hbundled := hadmitted.bundled
    simp only [initiativeBundle, bind_eq_ok_iff] at hbundled
    obtain ⟨_, -, _, -, _, -, hbundle⟩ := hbundled
    obtain rfl := Except.ok.inj hbundle
    exact ⟨rfl, rfl⟩
  -- both readings are of the same records
  have hprior := hadmitted.admitted
  rw [happrovals] at hprior
  rw [hinvalidated] at hprior hrecorded hrecord
  have hkey : entry.record.key = target.key phase.id := by rw [hrecord]; rfl
  have hactor : entry.record.actor = review.actor := by rw [hrecord]; rfl
  have hcurrent : activeApprovalRecords workspace.approvals (target.key phase.id)
      (invalidatedApprovals workspace.invalidations) = workspace.counted entry.record.key := by
    rw [hkey]
    rfl
  rw [hcurrent] at hprior hrecorded hrecord
  refine ⟨entry, hrecorded.counted, hrecorded.approvals, hrecorded.invalidations,
    by rw [hrecord]; rfl, ?_, fun other hmem => hactor ▸ hrecorded.fresh other hmem,
    fun chain hchain hmode => ?_, ?_⟩
  · rw [hrecorded.targeted, hrecord]
    exact approvalSubject_eq_ok hadmitted.targeted
  · rw [hrecorded.targeted] at hchain hmode
    obtain ⟨progress, step, email, hprogress, hopen, hemail, hmember⟩ :=
      open_of_admitted hprior hchain hmode
    obtain ⟨hstep, hearlier⟩ := open_eq_some hprogress hchain hopen
    refine ⟨step.index, ?_, hearlier, step.step, email, hstep, hactor ▸ hemail, hmember⟩
    rw [hrecord, approvalRecord, hprogress, Option.bind_some, hopen, Option.map_some]
  · rw [hrecorded.reached, hrecorded.targeted, hrecorded.counted]

/-! ## Attempts -/

/-- A refused operation leaves the state as it is. -/
def attempt (host : Host) (workspace : Workspace) (action : Action) : Workspace :=
  match step host workspace action with
  | .ok workspace' => workspace'
  | .error _ => workspace

def attempts (host : Host) (start : Workspace) (actions : List Action) : Workspace :=
  actions.foldl (attempt host) start

theorem attempts_concat (start : Workspace) (actions : List Action) (action : Action) :
    attempts host start (actions ++ [action]) = attempt host (attempts host start actions) action := by
  rw [attempts, List.foldl_concat, attempts]

/-- What an attempt kept holds after all attempts. -/
theorem attempt_cases (host : Host) (workspace : Workspace) (action : Action) :
    attempt host workspace action = workspace
      ∨ step host workspace action = .ok (attempt host workspace action) := by
  unfold attempt
  cases step host workspace action with
  | error e => exact .inl rfl
  | ok workspace' => exact .inr rfl

theorem resolution_attempts (start : Workspace) (actions : List Action) :
    (attempts host start actions).initiative.resolution = start.initiative.resolution := by
  induction actions using List.reverseRecOn with
  | nil => rfl
  | append_singleton actions action ih =>
      rw [attempts_concat]
      rcases attempt_cases host (attempts host start actions) action with heq | hstep
      · rw [heq, ih]
      · rw [resolution_step hstep, ih]

/-- What an operation does to the decisions. -/
inductive Decisions (host : Host) (workspace workspace' : Workspace) (action : Action) : Prop
  | none : workspace'.approvals = workspace.approvals →
      (∀ sha256 ∈ invalidatedApprovals workspace.invalidations,
        sha256 ∈ invalidatedApprovals workspace'.invalidations) →
      Decisions host workspace workspace' action
  | rejected (entry : Entry ApprovalRecord) : entry.record.decision = .rejected →
      workspace'.approvals = append workspace.approvals entry →
      (∀ sha256 ∈ invalidatedApprovals workspace.invalidations,
        sha256 ∈ invalidatedApprovals workspace'.invalidations) →
      Decisions host workspace workspace' action
  | approved (selected : Option Text) (subject : Text) (review : Review) (approved : Approved)
      (entry : Entry ApprovalRecord) : action = .approve selected subject review →
      approveInitiative host workspace selected subject review = .ok approved →
      approved.workspace = workspace' → Decided host workspace approved entry →
      Decisions host workspace workspace' action

theorem invalidatedApprovals_append {invalidations invalidations' : List (Entry InvalidationRecord)}
    (h : ∃ entry, invalidations' = append invalidations entry) :
    ∀ sha256 ∈ invalidatedApprovals invalidations, sha256 ∈ invalidatedApprovals invalidations' := by
  obtain ⟨entry, rfl⟩ := h
  intro sha256 hmem
  rcases append_eq_or invalidations entry with heq | heq
  · rwa [heq]
  · rw [heq, invalidatedApprovals, List.flatMap_append, List.filterMap_append]
    exact List.mem_append_left _ hmem

theorem decisions_step {workspace workspace' : Workspace} {action : Action}
    (h : step host workspace action = .ok workspace') :
    Decisions host workspace workspace' action := by
  cases action with
  | publish phaseId publication =>
      obtain ⟨phase, outputs, hpublished⟩ := published_of_eq_ok h
      exact .none hpublished.approvals fun _ hmem => hpublished.invalidations ▸ hmem
  | approve selected subject review =>
      obtain ⟨approved, happroved, hworkspace⟩ := map_eq_ok_iff.mp h
      obtain ⟨entry, hdecided⟩ := decided_of_eq_ok happroved
      exact .approved selected subject review approved entry rfl happroved hworkspace hdecided
  | reject selected subject rejection =>
      obtain ⟨phase, target, between, hrejected⟩ := rejected_of_eq_ok h
      obtain ⟨entry, hdecision, hinvalidated⟩ := hrejected.invalidated
      exact .rejected entry hdecision (hrejected.approvals.trans hinvalidated.approvals)
        (hrejected.invalidations ▸ invalidatedApprovals_append hinvalidated.invalidations)
  | invalidate starts invalidation =>
      have hinvalidated := invalidated_of_eq_ok h
      exact .none hinvalidated.approvals (invalidatedApprovals_append hinvalidated.invalidations)

/-! ## Counted reviewers -/

/-- No reviewer is counted twice for a subject. -/
def DistinctReviewers (host : Host) (workspace : Workspace) : Prop :=
  ∀ key, ((workspace.counted key).map fun entry => actorEmail host entry.record.actor).Nodup

theorem counted_sublist {workspace workspace' : Workspace} {key : SubjectKey}
    (happrovals : workspace'.approvals = workspace.approvals)
    (hinvalidated : ∀ sha256 ∈ invalidatedApprovals workspace.invalidations,
      sha256 ∈ invalidatedApprovals workspace'.invalidations) :
    (workspace'.counted key).Sublist (workspace.counted key) := by
  rw [Workspace.counted, Workspace.counted, activeApprovalRecords, activeApprovalRecords, happrovals]
  refine List.monotone_filter_right _ fun entry hcounted => ?_
  rw [countedFor_iff] at hcounted ⊢
  exact ⟨hcounted.1, hcounted.2.1, fun hmem => hcounted.2.2 (hinvalidated _ hmem)⟩

theorem DistinctReviewers.step {workspace workspace' : Workspace} {action : Action}
    (h : DistinctReviewers host workspace) (hstep : Decisions host workspace workspace' action) :
    DistinctReviewers host workspace' := by
  intro key
  have hadded : ∀ entry, (append workspace.approvals entry).filter
        (countedFor key (invalidatedApprovals workspace.invalidations)) = workspace.counted key
      ∨ (append workspace.approvals entry).filter
          (countedFor key (invalidatedApprovals workspace.invalidations))
          = workspace.counted key ++ [entry]
        ∧ countedFor key (invalidatedApprovals workspace.invalidations) entry = true := fun entry => by
    rcases append_eq_or workspace.approvals entry with heq | heq
    · exact .inl (by rw [heq]; rfl)
    · rw [heq, List.filter_append]
      by_cases hcounted : countedFor key (invalidatedApprovals workspace.invalidations) entry = true
      · exact .inr ⟨by rw [List.filter_cons_of_pos hcounted]; rfl, hcounted⟩
      · exact .inl (by rw [List.filter_cons_of_neg hcounted, List.filter_nil, List.append_nil]; rfl)
  cases hstep with
  | none happrovals hinvalidated =>
      exact (h key).sublist ((counted_sublist happrovals hinvalidated).map _)
  | rejected entry hdecision happrovals hinvalidated =>
      have hsame : (workspace'.counted key).Sublist (workspace.counted key) := by
        rcases hadded entry with heq | ⟨-, hcounted⟩
        · rw [← heq]
          exact @counted_sublist { workspace with approvals := append workspace.approvals entry }
            workspace' key happrovals hinvalidated
        · rw [countedFor_iff, hdecision] at hcounted
          cases hcounted.1
      exact (h key).sublist (hsame.map _)
  | approved _ _ _ approved entry _ _ hworkspace hdecided =>
      subst hworkspace
      rw [Workspace.counted, activeApprovalRecords, hdecided.approvals, hdecided.invalidations]
      rcases hadded entry with heq | ⟨heq, hcounted⟩
      · rw [heq]
        exact h key
      · obtain ⟨-, rfl, -⟩ := countedFor_iff.mp hcounted
        rw [heq, List.map_append, List.map_singleton, List.nodup_append]
        refine ⟨h _, List.nodup_singleton _, fun email hmem email' hmem' => ?_⟩
        obtain ⟨other, hother, rfl⟩ := List.mem_map.mp hmem
        rw [List.mem_singleton.mp hmem']
        exact hdecided.fresh other hother

theorem distinctReviewers_attempts {start : Workspace} (hstart : start.approvals = [])
    (actions : List Action) : DistinctReviewers host (attempts host start actions) := by
  induction actions using List.reverseRecOn with
  | nil =>
      intro key
      have hnil : start.counted key = [] := by
        rw [Workspace.counted, hstart]
        rfl
      rw [attempts, List.foldl_nil, hnil]
      exact List.nodup_nil
  | append_singleton actions action ih =>
      rw [attempts_concat]
      rcases attempt_cases host (attempts host start actions) action with heq | hstep
      · rwa [heq]
      · exact ih.step (decisions_step hstep)

/-! ## Recorded decisions -/

/-- The decision was recorded by an approval among some attempts, over the
decisions that were counted then. -/
def RecordedOver (host : Host) (start : Workspace) (actions : List Action)
    (entry : Entry ApprovalRecord) (approved : Approved) (records : List (Entry ApprovalRecord)) :
    Prop :=
  ∃ earlier selected subject review later,
    actions = earlier ++ .approve selected subject review :: later
      ∧ approveInitiative host (attempts host start earlier) selected subject review = .ok approved
      ∧ approved.counted = records ++ [entry]
      ∧ records = (attempts host start earlier).counted entry.record.key

theorem RecordedOver.concat {start : Workspace} {actions : List Action}
    {entry : Entry ApprovalRecord} {approved : Approved} {records : List (Entry ApprovalRecord)}
    (h : RecordedOver host start actions entry approved records) (action : Action) :
    RecordedOver host start (actions ++ [action]) entry approved records := by
  obtain ⟨earlier, selected, subject, review, later, rfl, hrest⟩ := h
  refine ⟨earlier, selected, subject, review, later ++ [action], ?_, hrest⟩
  rw [List.append_assoc, List.cons_append]

/-- Every decision was recorded by an approval. -/
theorem recorded_of_mem {start : Workspace} (hstart : start.approvals = []) (actions : List Action) :
    ∀ entry ∈ (attempts host start actions).approvals, entry.record.decision = .approved →
      ∃ approved records, RecordedOver host start actions entry approved records := by
  induction actions using List.reverseRecOn with
  | nil =>
      intro entry hmem
      rw [attempts, List.foldl_nil, hstart] at hmem
      cases hmem
  | append_singleton actions action ih =>
      intro entry hmem hdecision
      have hbefore : entry ∈ (attempts host start actions).approvals →
          ∃ approved records, RecordedOver host start (actions ++ [action]) entry approved records :=
        fun hmem => by
          obtain ⟨approved, records, hrecorded⟩ := ih entry hmem hdecision
          exact ⟨approved, records, hrecorded.concat action⟩
      have hadded : ∀ added, entry ∈ append (attempts host start actions).approvals added →
          entry ∈ (attempts host start actions).approvals ∨ entry = added := fun added hmem => by
        rcases append_eq_or (attempts host start actions).approvals added with heq | heq
        · exact .inl (heq ▸ hmem)
        · rw [heq, List.mem_append, List.mem_singleton] at hmem
          exact hmem
      rw [attempts_concat] at hmem
      rcases attempt_cases host (attempts host start actions) action with heq | hstep
      · exact hbefore (heq ▸ hmem)
      · cases decisions_step hstep with
        | none happrovals _ => exact hbefore (happrovals ▸ hmem)
        | rejected added hrejected happrovals _ =>
            rcases hadded added (happrovals ▸ hmem) with hmem | rfl
            · exact hbefore hmem
            · rw [hrejected] at hdecision
              cases hdecision
        | approved selected subject review approved added haction happroved hworkspace hdecided =>
            subst haction
            rw [← hworkspace, hdecided.approvals] at hmem
            rcases hadded added hmem with hmem | rfl
            · exact hbefore hmem
            · exact ⟨approved, _, actions, selected, subject, review, [], rfl, happroved,
                hdecided.counted, rfl⟩

/-! ## Chains that are reached -/

/-- What a chain that is reached rests on. -/
structure ReachedInOrder (host : Host) (start : Workspace) (actions : List Action)
    (chain : List ChainStep) (counted : List (Entry ApprovalRecord)) : Prop where
  /-- So many identities signed for each step. -/
  complete : ∀ k, StepSatisfied host counted chain k
  members : ∀ k step, chain[k]? = some step → ∀ email ∈ signatures host counted k,
    email ∈ authorityMembers host start.initiative.resolution step.authority
  once : ∀ j k, j ≠ k → List.Disjoint (signatures host counted j) (signatures host counted k)
  /-- Each decision was recorded for a step over decisions that satisfied the
  steps before it. -/
  ordered : ∀ entry ∈ counted, ∃ k approved records,
    RecordedOver host start actions entry approved records
      ∧ SignedInOrder host start.initiative.resolution chain records entry k

/-- A decision that was recorded for a subject was made in order by the policy
that the subject has. -/
theorem RecordedOver.signedInOrder {start : Workspace} {actions : List Action}
    {entry : Entry ApprovalRecord} {approved : Approved} {records : List (Entry ApprovalRecord)}
    {policy : ApprovalPolicy} {chain : List ChainStep}
    (h : RecordedOver host start actions entry approved records)
    (hpolicy : start.initiative.resolution.policy? entry.record.phase entry.record.subject.type
      entry.record.subject.id = some policy)
    (hchain : policy.chain = some chain) (hmode : policy.mode ≠ .none) :
    ∃ k, SignedInOrder host start.initiative.resolution chain records entry k := by
  obtain ⟨earlier, selected, subject, review, later, -, happroved, hcounted, hrecords⟩ := h
  obtain ⟨decided, hdecided⟩ := decided_of_eq_ok happroved
  obtain ⟨-, hentry⟩ := List.append_inj' (hdecided.counted.symm.trans hcounted) rfl
  obtain rfl := List.singleton_injective hentry
  have hsame := hdecided.policy
  rw [resolution_attempts, hpolicy, Option.some.injEq] at hsame
  subst hsame
  rw [hrecords, ← resolution_attempts start earlier]
  exact hdecided.chained chain hchain hmode

/-- **Chains are reached in order.**  When an approval completes a chain, after
any attempts, each step has its number of members of its own body, nobody signed
for two steps, and each decision was recorded when the steps before its own were
satisfied. -/
theorem reached_in_order {start : Workspace} (hstart : start.approvals = []) (actions : List Action)
    {selected : Option Text} {subject : Text} {review : Review} {approved : Approved}
    (happroved : approveInitiative host (attempts host start actions) selected subject review
      = .ok approved)
    (hreached : approved.reached = true) {value : Value} {label : Text}
    (hpolicy : normalizedApproval value label = .ok approved.target.definition)
    {chain : List ChainStep} (hchain : approved.target.definition.chain = some chain) :
    ReachedInOrder host start (actions ++ [.approve selected subject review]) chain
      approved.counted := by
  have hmode : approved.target.definition.mode ≠ .none :=
    (normalizedApproval_normalized hpolicy).chain_mode (by rw [hchain]; rfl)
  obtain ⟨last, hdecided⟩ := decided_of_eq_ok happroved
  have hlast := hdecided.policy
  rw [resolution_attempts] at hlast
  have hordered : ∀ entry ∈ approved.counted, ∃ k approved' records,
      RecordedOver host start (actions ++ [.approve selected subject review]) entry approved' records
        ∧ SignedInOrder host start.initiative.resolution chain records entry k := by
    intro entry hmem
    rw [hdecided.counted, List.mem_append, List.mem_singleton] at hmem
    rcases hmem with hmem | rfl
    · obtain ⟨hmem, hdecision, hkey, -⟩ := mem_counted.mp hmem
      obtain ⟨approved', records, hrecorded⟩ := recorded_of_mem hstart actions entry hmem hdecision
      simp only [ApprovalRecord.key, SubjectKey.mk.injEq] at hkey
      obtain ⟨hphase, htype, hid, -⟩ := hkey
      rw [← hphase, ← htype, ← hid] at hlast
      obtain ⟨k, hsigned⟩ := hrecorded.signedInOrder hlast hchain hmode
      exact ⟨k, approved', records, hrecorded.concat _, hsigned⟩
    · have hrecorded : RecordedOver host start (actions ++ [.approve selected subject review]) entry
          approved _ := ⟨actions, selected, subject, review, [], rfl, happroved, hdecided.counted, rfl⟩
      obtain ⟨k, hsigned⟩ := hrecorded.signedInOrder hlast hchain hmode
      exact ⟨k, approved, _, hrecorded, hsigned⟩
  have hdistinct : (approved.counted.map fun entry => actorEmail host entry.record.actor).Nodup := by
    rw [hdecided.counted, List.map_append, List.map_singleton, List.nodup_append]
    refine ⟨distinctReviewers_attempts hstart actions _, List.nodup_singleton _,
      fun email hmem email' hmem' => ?_⟩
    obtain ⟨other, hother, rfl⟩ := List.mem_map.mp hmem
    rw [List.mem_singleton.mp hmem']
    exact hdecided.fresh other hother
  refine ⟨fun k => ?_, fun k step hstep email hmem => ?_, fun j k hne email hj hk => ?_, hordered⟩
  · have hcomplete := hdecided.reached
    rw [hreached, reachedBy] at hcomplete
    split at hcomplete
    · next progress hprogress => exact satisfied_of_complete hprogress hchain hcomplete.symm k
    · next hnone =>
        rw [approvalChainProgress, hchain] at hnone
        cases hnone
  · obtain ⟨-, entry, hentry, hcredited, hemail⟩ := mem_signatures.mp hmem
    obtain ⟨k', _, _, -, hsigned⟩ := hordered entry hentry
    obtain rfl := Option.some.inj (hcredited.symm.trans hsigned.step)
    obtain ⟨definition, email', hdefinition, hemail', hmember⟩ := hsigned.member
    obtain rfl := Option.some.inj (hemail.symm.trans hemail')
    obtain rfl := Option.some.inj (hstep.symm.trans hdefinition)
    exact hmember
  · obtain ⟨-, entry, hentry, hcredited, hemail⟩ := mem_signatures.mp hj
    obtain ⟨-, entry', hentry', hcredited', hemail'⟩ := mem_signatures.mp hk
    obtain rfl := List.inj_on_of_nodup_map hdistinct hentry hentry' (hemail.trans hemail'.symm)
    exact hne (Option.some.inj (hcredited.symm.trans hcredited'))

section Example

def chainValue : Value :=
  .obj [(js "chain", .arr [.obj [(js "authority", .str (js "leads"))],
    .obj [(js "authority", .str (js "security"))]])]

def leadsThenSecurity : ApprovalPolicy :=
  ⟨.bundle, [js "leads", js "security"], 2, true,
    some [⟨js "leads", js "leads", 1⟩, ⟨js "security", js "security", 1⟩]⟩

/-- A profile with one phase, which a lead and then someone of security reviews. -/
def reviewedTwice : Resolution :=
  { id := js "reviewed-twice"
    phases := [{ phaseWith "discovery" "brief" [] with bundleApproval := leadsThenSecurity }]
    packs := []
    approvalAuthorities := [(js "leads", [js "ada@example.com"]),
      (js "security", [js "ada@example.com", js "eve@example.com"])]
    nonempty := List.cons_ne_nil _ _
    ids_nodup := by decide
    ids_safe := by decide }

def reviewedTwiceStart : Workspace :=
  ⟨{ id := js "INIT-1"
     resolution := reviewedTwice
     status := .inProgress
     currentPhase := some (js "discovery")
     phases := startPhases asciiHost reviewedTwice 0
     contracts := []
     childStories := []
     applicability := []
     phaseOrder_eq := map_id_startPhases asciiHost reviewedTwice 0 }, [], [], []⟩

def reviewByEve (recordedAt : String) : Review :=
  { reviewOf "a" recordedAt with actor := ⟨some (js "Eve"), some (js "eve@example.com")⟩ }

/-- Security cannot sign before the lead, and the lead signs once, though a
member of both bodies. -/
def attemptsInOrder : List Action :=
  [.publish (js "discovery") (publicationOf "a"), .approve none (js "phase") (reviewByEve "1"),
    .approve none (js "phase") (reviewOf "a" "2"), .approve none (js "phase") (reviewOf "a" "3")]

theorem reached_in_order_reviewedTwice : ∃ counted,
    ReachedInOrder asciiHost reviewedTwiceStart
      (attemptsInOrder ++ [.approve none (js "phase") (reviewByEve "4")])
      [⟨js "leads", js "leads", 1⟩, ⟨js "security", js "security", 1⟩] counted
      ∧ counted.length = 2 := by
  have hcheck : (approveInitiative asciiHost (attempts asciiHost reviewedTwiceStart attemptsInOrder)
      none (js "phase") (reviewByEve "4")).toOption.any (fun approved => approved.reached
        && approved.target.definition = leadsThenSecurity && approved.counted.length = 2) = true := by
    decide +kernel
  obtain ⟨approved, happroved, hchecked⟩ := exists_ok_of_any hcheck
  simp only [Bool.and_eq_true, decide_eq_true_eq] at hchecked
  obtain ⟨⟨hreached, hdefinition⟩, hlength⟩ := hchecked
  have hpolicy : normalizedApproval chainValue (js "bundleApproval")
      = .ok approved.target.definition := by
    rw [hdefinition]
    decide +kernel
  exact ⟨approved.counted, reached_in_order rfl attemptsInOrder happroved hreached hpolicy
    (by rw [hdefinition]; rfl), hlength⟩

end Example

end Initiatives

end SingularityFlow
