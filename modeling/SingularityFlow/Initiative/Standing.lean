/-
# Decisions that stand

A decision is counted for a subject while the hash of the subject is the one it
was made for.  The hashes of a pack and of a phase cover the statuses of their
outputs, and an approval that completes the policy of an output changes its
status.  The decisions that were counted for the phase, or for a pack that has
the output, are then counted no more, though what was reviewed is the same.

`nothing_voided_iff` says when approvals leave each other standing: when no
approval completes the policy of an output while a decision is counted for
something that covers the output.
-/
import SingularityFlow.Initiative.Chain

namespace SingularityFlow

open Ecma

namespace Initiatives

variable {host : Host}

/-! ## States with other statuses -/

/-- A phase of another status, with other outputs. -/
structure RestatedPhase (f : Text → List Output → List Output) (phase phase' : Phase) : Prop where
  id_eq : phase'.id = phase.id
  generation_eq : phase'.generation = phase.generation
  included_eq : phase'.included = phase.included
  outputs : phase'.outputs = f phase.id phase.outputs

/-- States that differ in the statuses of phases and in their outputs. -/
structure Restated (f : Text → List Output → List Output) (initiative initiative' : Initiative) :
    Prop where
  id_eq : initiative'.id = initiative.id
  resolution_eq : initiative'.resolution = initiative.resolution
  contracts_eq : initiative'.contracts = initiative.contracts
  childStories_eq : initiative'.childStories = initiative.childStories
  applicability_eq : initiative'.applicability = initiative.applicability
  phases : List.Forall₂ (RestatedPhase f) initiative.phases initiative'.phases

/-- The outputs of one name in one phase are approved. -/
def promote (phaseId outputId id : Text) (outputs : List Output) : List Output :=
  if id = phaseId then outputs.map fun output =>
    if output.id = outputId then { output with status := .approved } else output
  else outputs

section Restated

variable {f g : Text → List Output → List Output} {initiative initiative' initiative'' : Initiative}

theorem Restated.trans (h : Restated f initiative initiative')
    (h' : Restated g initiative' initiative'') :
    Restated (fun id outputs => g id (f id outputs)) initiative initiative'' := by
  refine ⟨h'.id_eq.trans h.id_eq, h'.resolution_eq.trans h.resolution_eq,
    h'.contracts_eq.trans h.contracts_eq, h'.childStories_eq.trans h.childStories_eq,
    h'.applicability_eq.trans h.applicability_eq, ?_⟩
  have hfirst := h.phases
  have hsecond := h'.phases
  generalize initiative.phases = as at hfirst
  generalize initiative'.phases = bs at hfirst hsecond
  generalize initiative''.phases = cs at hsecond
  clear h h'
  induction hfirst generalizing cs with
  | nil =>
      cases hsecond
      exact .nil
  | cons hab _ ih =>
      cases hsecond with
      | cons hbc hrest =>
          refine .cons ⟨hbc.id_eq.trans hab.id_eq, hbc.generation_eq.trans hab.generation_eq,
            hbc.included_eq.trans hab.included_eq, ?_⟩ (ih _ hrest)
          rw [hbc.outputs, hab.outputs, hab.id_eq]

theorem restated_update {id : Text} {change : Phase → Phase} {hid : ∀ phase, (change phase).id = phase.id}
    (hchange : ∀ phase : Phase, phase.id = id → RestatedPhase f phase (change phase))
    (hother : ∀ other, other ≠ id → ∀ outputs, f other outputs = outputs) :
    Restated f initiative (initiative.update id change hid) := by
  refine ⟨rfl, rfl, rfl, rfl, rfl, forall₂_map_right fun phase _ => ?_⟩
  split
  · next h => exact hchange phase h
  · next h => exact ⟨rfl, rfl, rfl, (hother _ h _).symm⟩

theorem restated_setStatus (id : Text) (status : PhaseStatus) :
    Restated (fun _ outputs => outputs) initiative
      (initiative.update id (setStatus status) fun _ => rfl) :=
  restated_update (fun _ _ => ⟨rfl, rfl, rfl, rfl⟩) fun _ _ _ => rfl

theorem restated_approveOutput (phaseId outputId : Text) :
    Restated (promote phaseId outputId) initiative
      (initiative.update phaseId (approveOutput outputId) fun _ => rfl) := by
  refine restated_update (fun phase hid => ⟨rfl, rfl, rfl, ?_⟩) fun other hne outputs => if_neg hne
  rw [promote, if_pos hid]
  rfl

theorem restated_completePhase (phaseId : Text) :
    Restated (fun _ outputs => outputs) initiative (completePhase initiative phaseId) := by
  have happroved := @restated_setStatus initiative phaseId .approved
  unfold completePhase
  simp only
  split
  · next nextId _ =>
      obtain ⟨hid, hresolution, hcontracts, hstories, happlicability, hphases⟩ :=
        happroved.trans (restated_setStatus nextId .inProgress)
      exact ⟨hid, hresolution, hcontracts, hstories, happlicability, hphases⟩
  · exact ⟨rfl, rfl, rfl, rfl, rfl, happroved.phases⟩

variable (h : Restated f initiative initiative')

include h

theorem Restated.phase? (id : Text) :
    (initiative.phase? id = none ∧ initiative'.phase? id = none)
      ∨ ∃ phase phase', initiative.phase? id = some phase ∧ initiative'.phase? id = some phase'
        ∧ RestatedPhase f phase phase' := by
  have hphases := h.phases
  unfold Initiative.phase?
  generalize initiative.phases = phases at hphases
  generalize initiative'.phases = phases' at hphases
  clear h
  induction hphases with
  | nil => exact .inl ⟨rfl, rfl⟩
  | @cons phase phase' _ _ hrestated _ ih =>
      rw [List.find?_cons, List.find?_cons, hrestated.id_eq]
      split
      · exact .inr ⟨phase, phase', rfl, rfl, hrestated⟩
      · exact ih

theorem Restated.phaseDefinition (id : Text) :
    phaseDefinition initiative' id = phaseDefinition initiative id := by
  unfold Initiatives.phaseDefinition
  rw [h.resolution_eq]

theorem Restated.outputDefinition (phaseId id : Text) :
    outputDefinition initiative' phaseId id = outputDefinition initiative phaseId id := by
  unfold Initiatives.outputDefinition
  rw [h.phaseDefinition]

theorem Restated.outputRequired (phaseId id : Text) (required : Bool) :
    initiativeOutputRequired initiative' phaseId id required
      = initiativeOutputRequired initiative phaseId id required := by
  unfold initiativeOutputRequired epicIntakeAllowsEmptyArtifacts
  rw [h.resolution_eq]
  rcases h.phase? phaseId with ⟨hnone, hnone'⟩ | ⟨phase, phase', hphase, hphase', hrestated⟩
  · rw [hnone, hnone']
  · rw [hphase, hphase', Option.bind_some, Option.bind_some, hrestated.included_eq]

theorem Restated.requiredMembers (pack : Pack) :
    requiredMembers initiative' pack = requiredMembers initiative pack := by
  unfold Initiatives.requiredMembers
  simp only [h.outputDefinition, h.outputRequired]

end Restated

/-! ## Outputs that keep what they are -/

/-- Outputs that stay what they are, up to their statuses. -/
structure KeepsContents (f : Text → List Output → List Output) : Prop where
  hashes : ∀ id outputs, (f id outputs).map (fun output => (output.id, output.sha256))
    = outputs.map fun output => (output.id, output.sha256)
  available : ∀ id outputs, ∀ outputId : Text,
    ((outputs.find? (·.id = outputId)).any Output.available = true) →
      ((f id outputs).find? (·.id = outputId)).any Output.available = true

theorem keepsContents_promote (phaseId outputId : Text) : KeepsContents (promote phaseId outputId) := by
  constructor
  · intro id outputs
    unfold promote
    split
    · rw [List.map_map]
      refine List.map_congr_left fun output _ => ?_
      simp only [Function.comp_apply]
      split <;> rfl
    · rfl
  · intro id outputs name hany
    unfold promote
    split
    · induction outputs with
      | nil => exact hany
      | cons output outputs ih =>
          have hid : (if output.id = outputId then { output with status := .approved } else output).id
              = output.id := by split <;> rfl
          rw [List.map_cons, List.find?_cons, hid]
          rw [List.find?_cons] at hany
          split
          · next hname =>
              rw [hname] at hany
              simp only [Option.any_some, Output.available, Bool.and_eq_true, Bool.or_eq_true,
                decide_eq_true_eq] at hany ⊢
              split
              · exact ⟨hany.1, .inr rfl⟩
              · exact hany
          · next hname =>
              rw [hname] at hany
              exact ih hany
    · exact hany

theorem keepsContents_id : KeepsContents fun _ outputs => outputs :=
  ⟨fun _ _ => rfl, fun _ _ _ hany => hany⟩

/-! ## The hash of a subject -/

/-- A subject that a reviewer names, with its present hash. -/
def subjectKey (host : Host) (workspace : Workspace) (surroundings : Surroundings)
    (phaseId subject : Text) : Option SubjectKey :=
  ((initiativeBundle host workspace surroundings phaseId).bind fun bundle =>
    (approvalSubject host workspace.initiative phaseId subject bundle).map
      fun target => target.key phaseId).toOption

/-- What a change of outputs leaves of a subject. -/
def Untouched (f : Text → List Output → List Output) (initiative : Initiative) (key : SubjectKey) :
    Prop :=
  match key.type with
  | .phase => ∀ outputs, f key.phaseId outputs = outputs
  | .pack => ∀ pack, initiative.resolution.packs.find? (·.id = key.id) = some pack →
      ∀ member ∈ pack.members, ∀ outputs,
        (f (referencePhase member) outputs).find? (·.id = referenceOutput member)
          = outputs.find? (·.id = referenceOutput member)
  | _ => True

section Keys

variable {f : Text → List Output → List Output} {initiative initiative' : Initiative}

theorem RestatedPhase.hashes {phase phase' : Phase} (h : RestatedPhase f phase phase')
    (hf : KeepsContents f) : phase'.hashes = phase.hashes := by
  rw [Phase.hashes, Phase.hashes, h.outputs, hf.hashes]

theorem RestatedPhase.output?_hash {phase phase' : Phase} (h : RestatedPhase f phase phase')
    (hf : KeepsContents f) (id : Text) :
    (phase'.output? id).bind Output.sha256 = (phase.output? id).bind Output.sha256 := by
  rw [Initiatives.output?_hash, Initiatives.output?_hash, h.hashes hf]

theorem RestatedPhase.output?_eq_none_iff {phase phase' : Phase} (h : RestatedPhase f phase phase')
    (hf : KeepsContents f) (id : Text) : phase'.output? id = none ↔ phase.output? id = none := by
  have hids : phase'.outputs.map Output.id = phase.outputs.map Output.id := by
    have hhashes := congrArg (List.map Prod.fst) (h.hashes hf)
    simpa only [Phase.hashes, List.map_map, Function.comp_def] using hhashes
  have hnone : ∀ outputs : List Output, outputs.find? (·.id = id) = none
      ↔ id ∉ outputs.map Output.id := fun outputs => by
    simp [List.find?_eq_none]
  rw [Phase.output?, Phase.output?, hnone, hnone, hids]

variable (h : Restated f initiative initiative') (hf : KeepsContents f)

include h

theorem Restated.output? (reference : Text)
    (hsame : ∀ outputs, (f (referencePhase reference) outputs).find? (·.id = referenceOutput reference)
      = outputs.find? (·.id = referenceOutput reference)) :
    initiative'.output? reference = initiative.output? reference := by
  unfold Initiative.output?
  rcases h.phase? (referencePhase reference) with ⟨hnone, hnone'⟩
    | ⟨phase, phase', hphase, hphase', hrestated⟩
  · rw [hnone, hnone']
  · obtain ⟨-, hid⟩ := mem_of_phase? hphase
    rw [hphase, hphase', Option.bind_some, Option.bind_some, Phase.output?, Phase.output?,
      hrestated.outputs, hid, hsame]

include hf

theorem Restated.available (reference : Text)
    (hany : (initiative.output? reference).any Output.available = true) :
    (initiative'.output? reference).any Output.available = true := by
  unfold Initiative.output? at hany ⊢
  rcases h.phase? (referencePhase reference) with ⟨hnone, -⟩
    | ⟨phase, phase', hphase, hphase', hrestated⟩
  · rw [hnone] at hany
    cases hany
  · obtain ⟨-, hid⟩ := mem_of_phase? hphase
    rw [hphase, Option.bind_some] at hany
    rw [hphase', Option.bind_some, Phase.output?, hrestated.outputs]
    exact hf.available _ _ _ hany

theorem Restated.requiredInitiativeMilestone (phaseId : Text) :
    requiredInitiativeMilestone phaseId initiative' = requiredInitiativeMilestone phaseId initiative := by
  unfold Initiatives.requiredInitiativeMilestone
  rcases h.phase? phaseId with ⟨hnone, hnone'⟩ | ⟨phase, phase', hphase, hphase', hrestated⟩
  · rw [hnone, hnone']
  · have hids : phase'.outputs.map Output.id = phase.outputs.map Output.id := by
      have hhashes := congrArg (List.map Prod.fst) (hrestated.hashes hf)
      simpa only [Phase.hashes, List.map_map, Function.comp_def] using hhashes
    rw [hphase, hphase']
    simp only [Option.map_some, hids]

theorem initiativePackBundle_restated {pack : Pack} {packBundle : PackBundle}
    (hbundle : initiativePackBundle host initiative pack = .ok packBundle) :
    ∃ packBundle', initiativePackBundle host initiative' pack = .ok packBundle'
      ∧ (packBundle.missing = [] → packBundle'.missing = [])
      ∧ ((∀ member ∈ pack.members, initiative'.output? member = initiative.output? member) →
        packBundle'.sha256 = packBundle.sha256) := by
  obtain ⟨required, hrequired, hbundle⟩ := bind_eq_ok_iff.mp hbundle
  obtain rfl := Except.ok.inj hbundle
  refine ⟨_, bind_eq_ok_iff.mpr ⟨required, by rw [h.requiredMembers]; exact hrequired, rfl⟩, ?_, ?_⟩
  · simp only [List.map_eq_nil_iff, List.filter_eq_nil_iff, packMembers, localeSort,
      List.mem_insertionSort, List.mem_map, forall_exists_index, and_imp,
      forall_apply_eq_imp_iff₂, Bool.and_eq_true, decide_eq_true_eq, Bool.not_eq_true', not_and,
      Bool.not_eq_false]
    exact fun hcomplete member hmem hmember => h.available hf member (hcomplete member hmem hmember)
  · intro hsame
    have hmembers : packMembers host initiative' pack = packMembers host initiative pack := by
      unfold packMembers
      rw [List.map_congr_left fun member hmem => by rw [hsame member hmem]]
    show host.recordSha256 (packValue host initiative' pack)
      = host.recordSha256 (packValue host initiative pack)
    unfold packValue
    rw [hmembers, h.id_eq]

end Keys

section Workspaces

variable {f : Text → List Output → List Output} {workspace workspace' : Workspace}
  {surroundings : Surroundings} {phaseId subject : Text}
  (h : Restated f workspace.initiative workspace'.initiative) (hf : KeepsContents f)
  (hevidence : workspace'.evidence = workspace.evidence)
  (hinvalidations : workspace'.invalidations = workspace.invalidations)

include h hf hevidence hinvalidations

theorem initiativeBundle_restated {bundle : Bundle}
    (hbundle : initiativeBundle host workspace surroundings phaseId = .ok bundle) :
    ∃ bundle', initiativeBundle host workspace' surroundings phaseId = .ok bundle'
      ∧ bundle'.checklist = bundle.checklist
      ∧ ((∀ outputs, f phaseId outputs = outputs) → bundle'.sha256 = bundle.sha256) := by
  simp only [initiativeBundle, bind_eq_ok_iff] at hbundle
  obtain ⟨definition, hdefinition, phase, hphase, specifications, hspecifications, hbundle⟩ := hbundle
  obtain rfl := Except.ok.inj hbundle
  have hfound := phaseOf_eq_ok hphase
  obtain ⟨-, hid⟩ := mem_of_phase? hfound
  rcases h.phase? phaseId with ⟨hnone, -⟩ | ⟨_, phase', hphase₁, hphase', hrestated⟩
  · rw [hnone] at hfound
    cases hfound
  · obtain rfl := Option.some.inj (hfound.symm.trans hphase₁)
    have hchecklist : evaluateInitiativeChecklist host workspace' surroundings definition
        = evaluateInitiativeChecklist host workspace surroundings definition := by
      unfold evaluateInitiativeChecklist evaluateCheck
      rw [hevidence, hinvalidations, h.applicability_eq]
    have hplanned : plannedSpecifications definition phase' surroundings
        = plannedSpecifications definition phase surroundings := by
      unfold plannedSpecifications
      rw [hrestated.output?_hash hf]
    refine ⟨⟨host.recordSha256 (bundleValue host workspace' phase'
        (evaluateInitiativeChecklist host workspace' surroundings definition) specifications),
      evaluateInitiativeChecklist host workspace' surroundings definition, workspace'.approvals,
      invalidatedApprovals workspace'.invalidations⟩, ?_, hchecklist, fun hsame => ?_⟩
    · simp only [initiativeBundle, bind_eq_ok_iff]
      refine ⟨definition, by rw [h.phaseDefinition]; exact hdefinition, phase', ?_, specifications,
        hplanned.trans hspecifications, rfl⟩
      rw [phaseOf, hphase']
    · have houtputs : phase'.outputs = phase.outputs := by
        rw [hrestated.outputs, hid, hsame]
      show host.recordSha256 (bundleValue host workspace' phase' _ specifications)
        = host.recordSha256 (bundleValue host workspace phase _ specifications)
      rw [hchecklist]
      unfold bundleValue
      simp only [hrestated.id_eq, hrestated.generation_eq, houtputs, h.id_eq, h.contracts_eq,
        h.childStories_eq, h.requiredInitiativeMilestone hf, hevidence, hinvalidations]

/-- **The hash of a subject.**  When statuses change, a subject keeps its hash if
the change does not touch it. -/
theorem subjectKey_restated {key : SubjectKey}
    (hkey : subjectKey host workspace surroundings phaseId subject = some key) :
    ∃ sha256, subjectKey host workspace' surroundings phaseId subject = some { key with sha256 }
      ∧ (Untouched f workspace.initiative key → sha256 = key.sha256) := by
  unfold subjectKey at hkey
  cases hbundle : initiativeBundle host workspace surroundings phaseId with
  | error e =>
      rw [hbundle] at hkey
      cases hkey
  | ok bundle =>
  cases htarget : approvalSubject host workspace.initiative phaseId subject bundle with
  | error e =>
      rw [hbundle, Except.bind, htarget] at hkey
      cases hkey
  | ok target =>
  rw [hbundle, Except.bind, htarget] at hkey
  obtain rfl : target.key phaseId = key := Option.some.inj hkey
  obtain ⟨bundle', hbundle', hchecklist, hsha⟩ :=
    initiativeBundle_restated h hf hevidence hinvalidations hbundle
  have hsome : ∀ target', approvalSubject host workspace'.initiative phaseId subject bundle'
      = .ok target' → subjectKey host workspace' surroundings phaseId subject
        = some (target'.key phaseId) := fun target' htarget' => by
    unfold subjectKey
    rw [hbundle', Except.bind, htarget']
    rfl
  simp only [approvalSubject, bind_eq_ok_iff] at htarget
  obtain ⟨definition, hdefinition, phase, hphase, htarget⟩ := htarget
  have hfound := phaseOf_eq_ok hphase
  rcases h.phase? phaseId with ⟨hnone, -⟩ | ⟨_, phase', hphase₁, hphase', hrestated⟩
  · rw [hnone] at hfound
    cases hfound
  obtain rfl := Option.some.inj (hfound.symm.trans hphase₁)
  have hsubject : approvalSubject host workspace'.initiative phaseId subject bundle'
      = if subject = js "phase" then
          .ok ⟨definition.bundleApproval, .phase, phaseId, some bundle'.sha256, none⟩
        else if packPrefix.isPrefixOf subject then
          packSubject host workspace'.initiative phaseId (subject.drop packPrefix.length)
        else
          (phase'.output? subject).elim
            (if subject ∈ inheritedNames then
              .error (refuse (js "Unknown initiative output '" ++ slashed phaseId subject
                ++ js "'."))
            else checkSubject host definition bundle' subject)
            (fun output => do
              let outputDefinition ← outputDefinition workspace'.initiative phaseId subject
              .ok ⟨outputDefinition.approval, .output, subject, output.sha256, output.generatedBy⟩) := by
    unfold approvalSubject
    rw [h.phaseDefinition, hdefinition, phaseOf, hphase']
    simp only [bind, Except.bind]
    cases phase'.output? subject <;> rfl
  rw [hsubject] at hsome
  split at htarget
  · next hsubject =>
      obtain rfl := Except.ok.inj htarget
      rw [if_pos hsubject] at hsome
      exact ⟨some bundle'.sha256, hsome _ rfl, fun huntouched => congrArg some (hsha huntouched)⟩
  · next hsubject =>
      rw [if_neg hsubject] at hsome
      split at htarget
      · next hprefix =>
          rw [if_pos hprefix] at hsome
          simp only [packSubject] at htarget
          split at htarget
          · next pack hpack =>
              simp only [bind_eq_ok_iff, failIf_eq_ok_iff] at htarget
              obtain ⟨_, hterminal, packBundle, hpackBundle, _, hmissing, htarget⟩ := htarget
              obtain rfl := Except.ok.inj htarget
              have hid : pack.id = subject.drop packPrefix.length := by
                simpa using List.find?_some hpack
              obtain ⟨packBundle', hpackBundle', hcomplete, hsame⟩ :=
                initiativePackBundle_restated h hf hpackBundle
              refine ⟨some packBundle'.sha256, hsome ⟨pack.approval, .pack, pack.id,
                some packBundle'.sha256, none⟩ ?_, fun huntouched => congrArg some (hsame ?_)⟩
              · simp only [packSubject, h.resolution_eq, hpack, bind_eq_ok_iff, failIf_eq_ok_iff]
                exact ⟨(), hterminal, packBundle', hpackBundle', (),
                  not_not.mpr (hcomplete (not_not.mp hmissing)), rfl⟩
              · intro member hmem
                refine h.output? member (huntouched pack ?_ member hmem)
                show workspace.initiative.resolution.packs.find? (·.id = pack.id) = some pack
                rw [hid]
                exact hpack
          · cases htarget
      · next hprefix =>
          rw [if_neg hprefix] at hsome
          split at htarget
          · next output houtput =>
              simp only [bind_eq_ok_iff] at htarget
              obtain ⟨outputDefinition, hdefinition', htarget⟩ := htarget
              obtain rfl := Except.ok.inj htarget
              have hhash := hrestated.output?_hash hf subject
              rw [houtput, Option.bind_some] at hhash
              cases houtput' : phase'.output? subject with
              | none =>
                  rw [(hrestated.output?_eq_none_iff hf subject).mp houtput'] at houtput
                  cases houtput
              | some output' =>
                  rw [houtput', Option.bind_some] at hhash
                  rw [houtput'] at hsome
                  refine ⟨output'.sha256, hsome ⟨outputDefinition.approval, .output, subject,
                    output'.sha256, output'.generatedBy⟩ ?_, fun _ => hhash⟩
                  simp only [Option.elim_some, bind_eq_ok_iff]
                  exact ⟨outputDefinition, by rw [h.outputDefinition]; exact hdefinition', rfl⟩
          · next houtput =>
              rw [(hrestated.output?_eq_none_iff hf subject).mpr houtput] at hsome
              split at htarget
              · cases htarget
              · next hinherited =>
                  simp only [Option.elim_none, if_neg hinherited] at hsome
                  refine ⟨target.sha256, hsome target ?_, fun _ => rfl⟩
                  unfold checkSubject at htarget ⊢
                  rw [hchecklist]
                  exact htarget

end Workspaces

/-! ## Approvals that leave decisions standing -/

/-- The decisions that are counted for a subject, with its present hash. -/
def standing (host : Host) (surroundings : Surroundings) (workspace : Workspace)
    (phaseId subject : Text) : List (Entry ApprovalRecord) :=
  match subjectKey host workspace surroundings phaseId subject with
  | none => []
  | some key => workspace.counted key

/-- What was counted for some subject is still counted for it, and nothing is
lost of what was reached by it. -/
structure KeepsDecisions (host : Host) (surroundings : Surroundings)
    (workspace workspace' : Workspace) : Prop where
  counted : ∀ phaseId subject, standing host surroundings workspace phaseId subject
    ⊆ standing host surroundings workspace' phaseId subject
  approvals : ∀ phaseId subject,
    distinctApprovals host (standing host surroundings workspace phaseId subject)
      ≤ distinctApprovals host (standing host surroundings workspace' phaseId subject)
  steps : ∀ phaseId subject chain k,
    StepSatisfied host (standing host surroundings workspace phaseId subject) chain k →
      StepSatisfied host (standing host surroundings workspace' phaseId subject) chain k

theorem keepsDecisions_of_counted {surroundings : Surroundings} {workspace workspace' : Workspace}
    (h : ∀ phaseId subject, standing host surroundings workspace phaseId subject
      ⊆ standing host surroundings workspace' phaseId subject) :
    KeepsDecisions host surroundings workspace workspace' := by
  refine ⟨h, fun phaseId subject => length_distinct_le (List.map_subset _ (h phaseId subject)),
    fun phaseId subject chain k hsatisfied step hstep => (hsatisfied step hstep).trans ?_⟩
  refine (List.subperm_of_subset (nodup_distinct _) fun email hmem => ?_).length_le
  obtain ⟨hne, entry, hentry, hcredited⟩ := mem_signatures.mp hmem
  exact mem_signatures.mpr ⟨hne, entry, h phaseId subject hentry, hcredited⟩

theorem KeepsDecisions.trans {surroundings : Surroundings} {a b c : Workspace}
    (hab : KeepsDecisions host surroundings a b) (hbc : KeepsDecisions host surroundings b c) :
    KeepsDecisions host surroundings a c :=
  keepsDecisions_of_counted fun phaseId subject =>
    List.Subset.trans (hab.counted phaseId subject) (hbc.counted phaseId subject)

/-- An attempt to approve. -/
structure Approval where
  selected : Option Text
  subject : Text
  review : Review

def approveStep (host : Host) (workspace : Workspace) (approval : Approval) :
    Except Failure Workspace :=
  (approveInitiative host workspace approval.selected approval.subject approval.review).map
    Approved.workspace

/-- A subject whose hash covers the status of an output: its phase, and the packs
that have it. -/
def Covers (initiative : Initiative) (phaseId outputId : Text) (key : SubjectKey) : Prop :=
  (key.type = .phase ∧ key.phaseId = phaseId)
    ∨ (key.type = .pack ∧ ∃ pack, initiative.resolution.packs.find? (·.id = key.id) = some pack
      ∧ ∃ member ∈ pack.members, referencePhase member = phaseId ∧ referenceOutput member = outputId)

/-- With the decision of a reviewer, a policy is reached. -/
def Completes (host : Host) (workspace : Workspace) (phaseId : Text) (target : Target)
    (review : Review) : Prop :=
  let current := workspace.counted (target.key phaseId)
  let step := (approvalChainProgress host target.definition current).bind ChainProgress.open?
  reachedBy host target.definition (current ++
    [⟨[], approvalRecord workspace.initiative.id phaseId target review step false⟩]) = true

/-- An approval that completes the policy of an output approves the output for
the first time only while nothing is counted for what covers it. -/
def LeavesStanding (host : Host) (surroundings : Surroundings) (workspace : Workspace)
    (approval : Approval) : Prop :=
  ∀ phase bundle target,
    Admitted host workspace phase approval.review bundle target approval.subject →
    target.type = .output → Completes host workspace phase.id target approval.review →
    (∀ output ∈ phase.outputs, output.id = target.id → output.status = .approved)
      ∨ ∀ phaseId subject key, subjectKey host workspace surroundings phaseId subject = some key →
        Covers workspace.initiative phase.id target.id key →
        workspace.counted key = []
          ∨ subjectKey host { workspace with
              initiative := settle workspace.initiative phase.id target } surroundings phaseId subject
            = some key

theorem untouched_id (initiative : Initiative) (key : SubjectKey) :
    Untouched (fun _ outputs => outputs) initiative key := by
  unfold Untouched
  split
  · exact fun _ => rfl
  · exact fun _ _ _ _ _ => rfl
  · trivial

theorem untouched_promote {initiative : Initiative} {phaseId outputId : Text} {key : SubjectKey}
    (h : ¬ Covers initiative phaseId outputId key) :
    Untouched (promote phaseId outputId) initiative key := by
  unfold Untouched
  split
  · next htype =>
      intro outputs
      exact if_neg fun hphase => h (.inl ⟨htype, hphase⟩)
  · next htype =>
      intro pack hpack member hmem outputs
      unfold promote
      split
      · next hphase =>
          have hname : referenceOutput member ≠ outputId := fun hname =>
            h (.inr ⟨htype, pack, hpack, member, hmem, hphase, hname⟩)
          induction outputs with
          | nil => rfl
          | cons output outputs ih =>
              have hid : (if output.id = outputId then { output with status := .approved }
                  else output).id = output.id := by split <;> rfl
              rw [List.map_cons, List.find?_cons, List.find?_cons, hid, ih]
              split
              · next hfound =>
                  rw [if_neg fun heq => hname ((of_decide_eq_true hfound).symm.trans heq)]
              · rfl
      · rfl
  · trivial

/-- Approving what is approved changes nothing. -/
theorem update_approveOutput_eq {initiative : Initiative} {phase : Phase} {outputId : Text}
    (hphase : initiative.phase? phase.id = some phase)
    (happroved : ∀ output ∈ phase.outputs, output.id = outputId → output.status = .approved) :
    initiative.update phase.id (approveOutput outputId) (fun _ => rfl) = initiative := by
  obtain ⟨hmem, -⟩ := mem_of_phase? hphase
  obtain ⟨before, after, hsplit⟩ := List.append_of_mem hmem
  have hsame : approveOutput outputId phase = phase := by
    have houtputs : (approveOutput outputId phase).outputs = phase.outputs := by
      refine (List.map_congr_left fun output hmem => ?_).trans (List.map_id _)
      show (if output.id = outputId then { output with status := .approved } else output) = output
      split
      · next hid => rw [← happroved output hmem hid]
      · rfl
    show { phase with outputs := (approveOutput outputId phase).outputs } = phase
    rw [houtputs]
  have hphases := update_phases hsplit (approveOutput outputId) fun _ => rfl
  rw [hsame, ← hsplit] at hphases
  obtain ⟨id, resolution, status, current, phases, contracts, stories, applicability, horder⟩ :=
    initiative
  simp only [Initiative.update, Initiative.mapPhases, Initiative.mk.injEq, true_and, and_true]
    at hphases ⊢
  exact hphases

theorem reachedBy_congr {policy : ApprovalPolicy} {records : List (Entry ApprovalRecord)}
    {entry entry' : Entry ApprovalRecord} (hactor : entry.record.actor = entry'.record.actor)
    (hstep : entry.record.subject.chainStep = entry'.record.subject.chainStep) :
    reachedBy host policy (records ++ [entry]) = reachedBy host policy (records ++ [entry']) := by
  have hsignatures : ∀ k, signatures host (records ++ [entry]) k
      = signatures host (records ++ [entry']) k := fun k => by
    unfold signatures
    simp only [List.filter_append, List.filterMap_append, List.filter_cons, List.filter_nil, hstep]
    split
    · simp only [List.filterMap_cons, List.filterMap_nil, hactor]
    · rfl
  have hprogress : approvalChainProgress host policy (records ++ [entry])
      = approvalChainProgress host policy (records ++ [entry']) := by
    unfold approvalChainProgress stepProgress
    simp only [hsignatures]
  unfold reachedBy distinctApprovals
  rw [hprogress]
  simp only [List.map_append, List.map_cons, List.map_nil, hactor]

/-- Which subjects an approval leaves standing, by their hashes. -/
theorem keepsDecisions_iff {surroundings : Surroundings} {workspace workspace' : Workspace}
    {f : Text → List Output → List Output}
    (h : Restated f workspace.initiative workspace'.initiative) (hf : KeepsContents f)
    (hevidence : workspace'.evidence = workspace.evidence)
    (hinvalidations : workspace'.invalidations = workspace.invalidations)
    (happrovals : workspace.approvals ⊆ workspace'.approvals) :
    KeepsDecisions host surroundings workspace workspace'
      ↔ ∀ phaseId subject key, subjectKey host workspace surroundings phaseId subject = some key →
        workspace.counted key = []
          ∨ subjectKey host workspace' surroundings phaseId subject = some key := by
  constructor
  · intro hkeeps phaseId subject key hkey
    obtain ⟨sha256, hkey', -⟩ := subjectKey_restated h hf hevidence hinvalidations hkey
    cases hcounted : workspace.counted key with
    | nil => exact .inl rfl
    | cons entry rest =>
        have hmem : entry ∈ workspace.counted key := by rw [hcounted]; exact List.mem_cons_self
        have hstanding : entry ∈ standing host surroundings workspace' phaseId subject :=
          hkeeps.counted phaseId subject (by rw [standing, hkey]; exact hmem)
        rw [standing, hkey'] at hstanding
        obtain ⟨-, -, hown, -⟩ := mem_counted.mp hmem
        obtain ⟨-, -, hown', -⟩ := mem_counted.mp hstanding
        exact .inr (hkey'.trans (congrArg some (hown'.symm.trans hown)))
  · intro hkeys
    refine keepsDecisions_of_counted fun phaseId subject entry hmem => ?_
    unfold standing at hmem
    split at hmem
    · cases hmem
    · next key hkey =>
        rcases hkeys phaseId subject key hkey with hnil | hkey'
        · rw [hnil] at hmem
          cases hmem
        · rw [standing, hkey']
          obtain ⟨happroval, hdecision, hown, hvalid⟩ := mem_counted.mp hmem
          exact mem_counted.mpr ⟨happrovals happroval, hdecision, hown, hinvalidations ▸ hvalid⟩

theorem subset_append {α : Type} (entries : List (Entry α)) (entry : Entry α) :
    entries ⊆ append entries entry := by
  rcases append_eq_or entries entry with heq | heq
  · rw [heq]
    exact List.Subset.refl _
  · rw [heq]
    exact List.subset_append_left _ _

/-- What is hashed does not read the approvals. -/
theorem subjectKey_congr {surroundings : Surroundings} {workspace workspace' : Workspace}
    (hinitiative : workspace'.initiative = workspace.initiative)
    (hevidence : workspace'.evidence = workspace.evidence)
    (hinvalidations : workspace'.invalidations = workspace.invalidations) (phaseId subject : Text) :
    subjectKey host workspace' surroundings phaseId subject
      = subjectKey host workspace surroundings phaseId subject := by
  have hsame : ∀ {workspace workspace' : Workspace}, workspace'.initiative = workspace.initiative →
      Restated (fun _ outputs => outputs) workspace.initiative workspace'.initiative := fun heq =>
    heq ▸ ⟨rfl, rfl, rfl, rfl, rfl, List.forall₂_same.mpr fun _ _ => ⟨rfl, rfl, rfl, rfl⟩⟩
  cases hkey : subjectKey host workspace surroundings phaseId subject with
  | some key =>
      obtain ⟨sha256, hkey', hsha⟩ :=
        subjectKey_restated (hsame hinitiative) keepsContents_id hevidence hinvalidations hkey
      rw [hkey', hsha (untouched_id _ _)]
  | none =>
      cases hkey' : subjectKey host workspace' surroundings phaseId subject with
      | none => rfl
      | some key =>
          obtain ⟨sha256, hkey'', -⟩ := subjectKey_restated (hsame hinitiative.symm) keepsContents_id
            hevidence.symm hinvalidations.symm hkey'
          rw [hkey] at hkey''
          cases hkey''

theorem Admitted.unique {workspace : Workspace} {review : Review} {subject : Text}
    {phase phase' : Phase} {bundle bundle' : Bundle} {target target' : Target}
    (h : Admitted host workspace phase review bundle target subject)
    (h' : Admitted host workspace phase' review bundle' target' subject) :
    phase' = phase ∧ target' = target := by
  have hid : phase'.id = phase.id := Option.some.inj (h'.current.symm.trans h.current)
  have hfound := h'.found
  have hbundled := h'.bundled
  have htargeted := h'.targeted
  rw [hid] at hfound hbundled htargeted
  obtain rfl := Option.some.inj (hfound.symm.trans h.found)
  obtain rfl := Except.ok.inj (hbundled.symm.trans h.bundled)
  exact ⟨rfl, Except.ok.inj (htargeted.symm.trans h.targeted)⟩

/-- An approval leaves the other decisions standing exactly if the guard admits it. -/
theorem keepsDecisions_step_iff {surroundings : Surroundings} {workspace workspace' : Workspace}
    {approval : Approval} (hstep : approveStep host workspace approval = .ok workspace') :
    KeepsDecisions host surroundings workspace workspace'
      ↔ LeavesStanding host surroundings workspace approval := by
  obtain ⟨approved, happroved, rfl⟩ := map_eq_ok_iff.mp hstep
  obtain ⟨phase, bundle, target, hadmitted, hrecorded⟩ := admitted_of_eq_ok happroved
  obtain ⟨entry, hrecorded⟩ := recorded_of_eq_ok hrecorded
  have hcompletes : approved.reached = true
      ↔ Completes host workspace phase.id target approval.review := by
    have hinvalidated : bundle.invalidatedApprovals
        = invalidatedApprovals workspace.invalidations := by
      have hbundled := hadmitted.bundled
      simp only [initiativeBundle, bind_eq_ok_iff] at hbundled
      obtain ⟨_, -, _, -, _, -, hbundle⟩ := hbundled
      rw [← Except.ok.inj hbundle]
    obtain ⟨selfApproval, hrecord⟩ := hrecorded.recorded
    rw [hrecorded.reached, Completes, Workspace.counted, ← hinvalidated]
    refine Eq.to_iff (congrArg (· = true) (reachedBy_congr ?_ ?_))
    · rw [hrecord]
      rfl
    · rw [hrecord]
      rfl
  have happrovals : workspace.approvals ⊆ approved.workspace.approvals :=
    hrecorded.approvals ▸ subset_append _ _
  have hevidence := hrecorded.evidence
  have hinvalidations := hrecorded.invalidations
  by_cases houtput : approved.reached = true ∧ target.type = .output
  · obtain ⟨hreached, htype⟩ := houtput
    have hsettled : approved.workspace.initiative
        = settle workspace.initiative phase.id target := by
      rw [hrecorded.initiative, if_pos hreached]
    have hsettle : settle workspace.initiative phase.id target
        = workspace.initiative.update phase.id (approveOutput target.id) fun _ => rfl := by
      unfold settle
      rw [htype]
    have hrestated : Restated (promote phase.id target.id) workspace.initiative
        approved.workspace.initiative := by
      rw [hsettled, hsettle]
      exact restated_approveOutput phase.id target.id
    have hcongr := @subjectKey_congr host surroundings
      { workspace with initiative := settle workspace.initiative phase.id target } approved.workspace
      hsettled hevidence hinvalidations
    rw [keepsDecisions_iff hrestated (keepsContents_promote _ _) hevidence hinvalidations happrovals]
    constructor
    · rintro hkeys phase' bundle' target' hadmitted' - -
      obtain ⟨rfl, rfl⟩ := hadmitted.unique hadmitted'
      exact .inr fun phaseId subject key hkey _ => hcongr phaseId subject ▸ hkeys phaseId subject key hkey
    · intro hleaves phaseId subject key hkey
      rcases hleaves phase bundle target hadmitted htype (hcompletes.mp hreached) with happroved | hcovered
      · have hsame := update_approveOutput_eq hadmitted.found happroved
        exact .inr ((subjectKey_congr (hsettled.trans (hsettle.trans hsame)) hevidence hinvalidations
          phaseId subject).trans hkey)
      · by_cases hcovers : Covers workspace.initiative phase.id target.id key
        · exact hcongr phaseId subject ▸ hcovered phaseId subject key hkey hcovers
        · obtain ⟨sha256, hkey', hsha⟩ := subjectKey_restated hrestated (keepsContents_promote _ _)
            hevidence hinvalidations hkey
          rw [hsha (untouched_promote hcovers)] at hkey'
          exact .inr hkey'
  · have hrestated : Restated (fun _ outputs => outputs) workspace.initiative
        approved.workspace.initiative := by
      have hself : Restated (fun _ outputs => outputs) workspace.initiative workspace.initiative :=
        ⟨rfl, rfl, rfl, rfl, rfl, List.forall₂_same.mpr fun _ _ => ⟨rfl, rfl, rfl, rfl⟩⟩
      rw [hrecorded.initiative]
      split
      · next hreached =>
          unfold settle
          split
          · next htype => exact absurd ⟨hreached, htype⟩ houtput
          · exact restated_completePhase _
          · exact hself
      · exact hself
    refine ⟨fun _ phase' bundle' target' hadmitted' htype hcomplete => ?_, fun _ => ?_⟩
    · obtain ⟨rfl, rfl⟩ := hadmitted.unique hadmitted'
      exact absurd ⟨hcompletes.mpr hcomplete, htype⟩ houtput
    · rw [keepsDecisions_iff hrestated keepsContents_id hevidence hinvalidations happrovals]
      intro phaseId subject key hkey
      obtain ⟨sha256, hkey', hsha⟩ :=
        subjectKey_restated hrestated keepsContents_id hevidence hinvalidations hkey
      rw [hsha (untouched_id _ _)] at hkey'
      exact .inr hkey'

/-- No approval of a run voided a decision: what was counted in some state is
still counted. -/
def NothingVoided (host : Host) (surroundings : Surroundings) (past : List (Workspace × Approval))
    (workspace : Workspace) : Prop :=
  ∀ entry ∈ past, KeepsDecisions host surroundings entry.1 workspace

/-- **When approvals leave each other standing.**  In a run of approvals every
decision stays counted exactly if no approval completes the policy of an output
that is not approved while decisions are counted for its phase, or for a pack
that has it, whose hash then changes. -/
theorem nothing_voided_iff {start workspace : Workspace} {past : List (Workspace × Approval)}
    (surroundings : Surroundings) (hrun : Run (approveStep host) start past workspace) :
    Throughout (NothingVoided host surroundings) past workspace
      ↔ ∀ entry ∈ past, LeavesStanding host surroundings entry.1 entry.2 := by
  refine hrun.throughout_iff (fun _ hmem => absurd hmem List.not_mem_nil) fun _ hkept hstep => ?_
  rw [← keepsDecisions_step_iff hstep]
  constructor
  · intro h
    exact h _ List.mem_cons_self
  · intro hlast
    exact List.forall_mem_cons.mpr ⟨hlast, fun entry hmem => (hkept entry hmem).trans hlast⟩

section Example

/-- A profile whose phase two leads approve, and whose output one of them does. -/
def twoLeads : Resolution :=
  { id := js "two-leads"
    phases := [{ phaseWith "discovery" "brief" [] with
        bundleApproval := { leadsApprove with minimum := 2 } }]
    packs := []
    approvalAuthorities := [(js "leads", [js "ada@example.com", js "bob@example.com"])]
    nonempty := List.cons_ne_nil _ _
    ids_nodup := by decide
    ids_safe := by decide }

def twoLeadsStart : Workspace :=
  ⟨{ id := js "INIT-1"
     resolution := twoLeads
     status := .inProgress
     currentPhase := some (js "discovery")
     phases := startPhases asciiHost twoLeads 0
     contracts := []
     childStories := []
     applicability := []
     phaseOrder_eq := map_id_startPhases asciiHost twoLeads 0 }, [], [], []⟩

/-- The discovery awaits its approval. -/
def awaitingLeads : Workspace :=
  attempts asciiHost twoLeadsStart [.publish (js "discovery") (publicationOf "a")]

/-- One lead approves the phase, and then its output. -/
def phaseThenOutput : List Approval :=
  [⟨none, js "phase", reviewOf "a" "1"⟩, ⟨none, js "brief", reviewOf "a" "2"⟩]

theorem exists_run_phaseThenOutput : ∃ past workspace,
    Run (approveStep asciiHost) awaitingLeads past workspace
      ∧ ∃ between approval, (between, approval) ∈ past
        ∧ (standing asciiHost (reviewOf "a" "1").surroundings between (js "discovery")
          (js "phase")).length = 1
        ∧ standing asciiHost (reviewOf "a" "1").surroundings workspace (js "discovery")
          (js "phase") = [] := by
  obtain ⟨past, workspace, hrun, hcheck⟩ := @Run.exists_of_runFrom_past _ _ _ (approveStep asciiHost)
    awaitingLeads phaseThenOutput (fun run => run.1.any (fun entry =>
        (standing asciiHost (reviewOf "a" "1").surroundings entry.1 (js "discovery")
          (js "phase")).length = 1)
      && (standing asciiHost (reviewOf "a" "1").surroundings run.2 (js "discovery")
        (js "phase")).length = 0) (by decide +kernel)
  simp only [Bool.and_eq_true, List.any_eq_true, decide_eq_true_eq, List.length_eq_zero_iff] at hcheck
  obtain ⟨⟨⟨between, approval⟩, hmem, hone⟩, hnone⟩ := hcheck
  exact ⟨past, workspace, hrun, between, approval, hmem, hone, hnone⟩

theorem nothing_voided_iff_phaseThenOutput : ∃ past workspace, past ≠ []
    ∧ (Throughout (NothingVoided asciiHost (reviewOf "a" "1").surroundings) past workspace
      ↔ ∀ entry ∈ past, LeavesStanding asciiHost (reviewOf "a" "1").surroundings entry.1 entry.2) := by
  obtain ⟨past, workspace, hrun, between, approval, hmem, -⟩ := exists_run_phaseThenOutput
  exact ⟨past, workspace, List.ne_nil_of_mem hmem, nothing_voided_iff _ hrun⟩

/-- The approval of the output voids the approval of the phase. -/
theorem voided_phaseThenOutput : ∃ past workspace,
    Run (approveStep asciiHost) awaitingLeads past workspace
      ∧ ¬ NothingVoided asciiHost (reviewOf "a" "1").surroundings past workspace := by
  obtain ⟨past, workspace, hrun, between, approval, hmem, hone, hnone⟩ := exists_run_phaseThenOutput
  refine ⟨past, workspace, hrun, fun h => ?_⟩
  have hkept := (h _ hmem).counted (js "discovery") (js "phase")
  rw [hnone] at hkept
  rw [List.eq_nil_of_subset_nil hkept] at hone
  cases hone

end Example

end Initiatives

end SingularityFlow
