/-
# What an approval rests on

A phase is approved over the hashes that its inputs have then.  Invalidating a
node reopens a phase with all of its outputs, but leaves approved the phases
that the cone does not reach, among them those that consume another output of
the reopened phase.  When that phase is published again with another file for
such an output, they stay approved, and the lifecycle passes over them.

`justified_iff` says exactly when this does not happen: when every publication
finds, for each output that an approved phase consumes, the file it had.
-/
import SingularityFlow.Initiative.Shape

namespace SingularityFlow

open Ecma

namespace Initiatives

variable {host : Host}

/-! ## Recorded hashes -/

/-- The hash that is recorded for the output a reference names. -/
def recordedHash (initiative : Initiative) (reference : Text) : Option Text :=
  (initiative.output? reference).bind Output.sha256

def statusOf (initiative : Initiative) (phaseId : Text) : Option PhaseStatus :=
  (initiative.phase? phaseId).map Phase.status

/-- The hash that an input of an approved phase had when the phase was approved:
in the first of the states in which it has been approved since. -/
def inputWhenApproved (phaseId reference : Text) : List (Workspace × Action) → Workspace → Option Text
  | [], workspace => recordedHash workspace.initiative reference
  | (before, _) :: past, workspace =>
      if statusOf before.initiative phaseId = some .approved then
        inputWhenApproved phaseId reference past before
      else recordedHash workspace.initiative reference

/-- A phase that consumes an output. -/
def Consumes (initiative : Initiative) (phaseId reference : Text) : Prop :=
  ∃ definition output, initiative.resolution.phase? phaseId = some definition
    ∧ (output, reference) ∈ definition.inputs

/-- Approved phases have the inputs that they were approved over. -/
def Justified (past : List (Workspace × Action)) (workspace : Workspace) : Prop :=
  ∀ phaseId reference, statusOf workspace.initiative phaseId = some .approved →
    Consumes workspace.initiative phaseId reference →
    recordedHash workspace.initiative reference = inputWhenApproved phaseId reference past workspace

/-- A publication that finds the recorded contents in the files of the outputs
that approved phases consume. -/
def KeepsInputs (workspace : Workspace) : Action → Prop
  | .publish phaseId publication =>
      ∀ consumer reference, statusOf workspace.initiative consumer = some .approved →
        Consumes workspace.initiative consumer reference → referencePhase reference = phaseId →
        ∀ output, workspace.initiative.output? reference = some output →
          ∀ sha256, publication.file output.path = .ok (some sha256) → output.sha256 = some sha256
  | _ => True

/-- Quiet operations leave the recorded hashes. -/
theorem QuieterState.recordedHash {initiative initiative' : Initiative}
    (h : QuieterState initiative initiative') (reference : Text) :
    recordedHash initiative' reference = recordedHash initiative reference := by
  have hphases := h.phases
  unfold Initiatives.recordedHash Initiative.output? Initiative.phase?
  generalize initiative.phases = phases at hphases
  generalize initiative'.phases = phases' at hphases
  induction hphases with
  | nil => rfl
  | @cons phase phase' _ _ hquieter _ ih =>
      rw [List.find?_cons, List.find?_cons, hquieter.id_eq]
      split
      · simp only [Option.bind_some, output?_hash, hquieter.hashes]
      · exact ih

theorem QuieterState.consumes {initiative initiative' : Initiative}
    (h : initiative'.resolution = initiative.resolution) (phaseId reference : Text) :
    Consumes initiative' phaseId reference ↔ Consumes initiative phaseId reference := by
  unfold Consumes
  rw [h]

/-! ## Publications -/

section Publication

variable {workspace workspace' : Workspace} {phaseId : Text} {publication : Publication}
  {phase : Phase} {outputs : List Output}

theorem id_published (actor : Actor) (generation : Nat) (output : Output) (file : Option Text) :
    (published actor generation output file).id = output.id := by
  cases file <;> rfl

theorem find?_sequence {id : Text} {l read : List Output} {generation : Nat}
    (h : sequence (l.map (publishOutput publication generation)) = .ok read) :
    ∀ output, l.find? (·.id = id) = some output →
      ∃ file, publication.file output.path = .ok file
        ∧ read.find? (·.id = id) = some (published publication.actor generation output file) := by
  induction l generalizing read with
  | nil => intro output hnone; cases hnone
  | cons first rest ih =>
      intro output hfind
      rw [List.map_cons] at h
      cases hfirst : publishOutput publication generation first with
      | error e =>
          rw [hfirst] at h
          cases h
      | ok output' =>
          rw [hfirst, sequence] at h
          split at h
          · cases h
          · next rest' hrest =>
              obtain rfl := Except.ok.inj h
              obtain ⟨file, hfile, hpublished⟩ := bind_eq_ok_iff.mp hfirst
              obtain rfl := Except.ok.inj hpublished
              rw [List.find?_cons] at hfind ⊢
              rw [id_published]
              split at hfind
              · obtain rfl := Option.some.inj hfind
                exact ⟨file, hfile, rfl⟩
              · exact ih hrest output hfind

theorem find?_sequence_none {id : Text} {l read : List Output} {generation : Nat}
    (h : sequence (l.map (publishOutput publication generation)) = .ok read)
    (hnone : l.find? (·.id = id) = none) : read.find? (·.id = id) = none := by
  rw [List.find?_eq_none] at hnone ⊢
  intro output hmem
  obtain ⟨output', hmem', hok⟩ := (mem_of_sequence h).mp hmem
  obtain ⟨file, -, hpublished⟩ := bind_eq_ok_iff.mp hok
  obtain rfl := Except.ok.inj hpublished
  rw [id_published]
  exact hnone output' hmem'

theorem phase?_update_of_ne {initiative : Initiative} {id other : Text} {f : Phase → Phase}
    {hid : ∀ phase, (f phase).id = phase.id} (hne : other ≠ id) :
    (initiative.update id f hid).phase? other = initiative.phase? other := by
  have hmap : ∀ l : List Phase,
      (l.map fun phase => if phase.id = id then f phase else phase).find? (·.id = other)
        = l.find? (·.id = other) := fun l => by
    induction l with
    | nil => rfl
    | cons first rest ih =>
        rw [List.map_cons, List.find?_cons, List.find?_cons, ih]
        by_cases hfirst : first.id = id
        · have hfalse : decide (first.id = other) = false := by
            simpa using fun heq : first.id = other => hne (heq.symm.trans hfirst)
          rw [if_pos hfirst, hid, hfalse]
        · rw [if_neg hfirst]
  exact hmap initiative.phases

theorem phase?_update_self {initiative : Initiative} {f : Phase → Phase}
    {hid : ∀ phase, (f phase).id = phase.id} (h : initiative.phase? phaseId = some phase) :
    (initiative.update phaseId f hid).phase? phaseId = some (f phase) := by
  obtain ⟨hmem, rfl⟩ := mem_of_phase? h
  obtain ⟨before, after, hsplit⟩ := List.append_of_mem hmem
  rw [← hid phase]
  refine phase?_of_mem ?_
  rw [hid, update_phases hsplit]
  simp

/-- A publication writes the hashes of the files, and no other. -/
theorem Published.recordedHash_eq_iff
    (h : Published workspace phaseId publication phase outputs workspace') (reference : Text) :
    recordedHash workspace'.initiative reference = recordedHash workspace.initiative reference
      ↔ (referencePhase reference = phaseId →
        ∀ output, workspace.initiative.output? reference = some output →
          ∀ sha256, publication.file output.path = .ok (some sha256) →
            output.sha256 = some sha256) := by
  unfold recordedHash Initiative.output?
  rw [h.initiative]
  by_cases hphase : referencePhase reference = phaseId
  · rw [hphase, phase?_update_self h.found, h.found, Option.bind_some, Option.bind_some]
    show (outputs.find? (·.id = referenceOutput reference)).bind Output.sha256
      = (phase.outputs.find? (·.id = referenceOutput reference)).bind Output.sha256 ↔ _
    cases hfind : phase.outputs.find? (·.id = referenceOutput reference) with
    | none =>
        rw [find?_sequence_none h.read hfind]
        refine ⟨fun _ _ output houtput => ?_, fun _ => rfl⟩
        rw [Phase.output?, hfind] at houtput
        cases houtput
    | some output =>
        obtain ⟨file, hfile, hread⟩ := find?_sequence h.read output hfind
        rw [hread, Option.bind_some, Option.bind_some]
        constructor
        · intro heq _ output' houtput' sha256 hsha
          rw [Phase.output?, hfind] at houtput'
          obtain rfl := Option.some.inj houtput'
          obtain rfl := Except.ok.inj (hfile.symm.trans hsha)
          exact heq.symm
        · intro hkeeps
          cases file with
          | none => rfl
          | some sha256 => exact (hkeeps rfl output hfind sha256 hfile).symm
  · rw [phase?_update_of_ne hphase]
    exact ⟨fun _ heq => absurd heq hphase, fun _ => rfl⟩

theorem Published.statusOf_approved_iff
    (h : Published workspace phaseId publication phase outputs workspace') (consumer : Text) :
    statusOf workspace'.initiative consumer = some .approved
      ↔ statusOf workspace.initiative consumer = some .approved := by
  unfold statusOf
  rw [h.initiative]
  by_cases hconsumer : consumer = phaseId
  · rw [hconsumer, phase?_update_self h.found, h.found]
    simp [submit, h.inProgress]
  · rw [phase?_update_of_ne hconsumer]

end Publication

/-! ## Every run -/

/-- A step keeps approved phases justified exactly if it is not a publication that
changes what they consume. -/
theorem justified_step_iff {past : List (Workspace × Action)} {workspace workspace' : Workspace}
    {action : Action} (h : Justified past workspace)
    (hstep : step host workspace action = .ok workspace') :
    Justified ((workspace, action) :: past) workspace' ↔ KeepsInputs workspace action := by
  rcases published_or_quieter hstep with ⟨phaseId, publication, phase, outputs, rfl, hpublished⟩
    | ⟨hother, hquieter⟩
  · have hconsumes := QuieterState.consumes (resolution_step hstep)
    constructor
    · intro hjustified consumer reference hstatus hinput
      have hstatus' := (hpublished.statusOf_approved_iff consumer).mpr hstatus
      have heq := hjustified consumer reference hstatus' ((hconsumes _ _).mpr hinput)
      rw [inputWhenApproved, if_pos hstatus, ← h consumer reference hstatus hinput] at heq
      exact (hpublished.recordedHash_eq_iff reference).mp heq
    · intro hkeeps consumer reference hstatus' hinput'
      have hstatus := (hpublished.statusOf_approved_iff consumer).mp hstatus'
      have hinput := (hconsumes _ _).mp hinput'
      rw [inputWhenApproved, if_pos hstatus, ← h consumer reference hstatus hinput]
      exact (hpublished.recordedHash_eq_iff reference).mpr (hkeeps consumer reference hstatus hinput)
  · have hkept : KeepsInputs workspace action := by
      cases action with
      | publish phaseId publication => exact absurd rfl (hother phaseId publication)
      | approve _ _ _ | reject _ _ _ | invalidate _ _ => trivial
    refine ⟨fun _ => hkept, fun _ consumer reference hstatus' hinput' => ?_⟩
    have hinput := (QuieterState.consumes hquieter.resolution _ _).mp hinput'
    rw [inputWhenApproved]
    split
    · next hstatus => rw [hquieter.recordedHash, h consumer reference hstatus hinput]
    · rfl

/-- **The justification of approved phases.**  In every state of a run each
approved phase has the inputs it was approved over exactly if no publication of
the run changes an output that an approved phase consumes. -/
theorem justified_iff {start workspace : Workspace} {past : List (Workspace × Action)}
    (hrun : Run (step host) start past workspace) :
    Throughout Justified past workspace ↔ ∀ entry ∈ past, KeepsInputs entry.1 entry.2 :=
  hrun.throughout_iff (fun _ _ _ _ => rfl) fun _ hjustified hstep =>
    justified_step_iff hjustified hstep

section Example

/-- A discovery with two outputs, of which the delivery consumes one. -/
def twoOutputs : Resolution :=
  { id := js "two-outputs"
    phases := [{ phaseWith "discovery" "brief" [] with
        outputs := [⟨js "brief", js "brief", [], true, leadsApprove⟩,
          ⟨js "map", js "map", [], true, leadsApprove⟩] },
      phaseWith "delivery" "plan" [js "discovery/brief"]]
    packs := []
    approvalAuthorities := [(js "leads", [js "ada@example.com"])]
    nonempty := List.cons_ne_nil _ _
    ids_nodup := by decide
    ids_safe := by decide }

/-- The other output of an approved discovery is invalidated, and the discovery is
published again with another brief. -/
def briefReplaced : List Action :=
  [.publish (js "discovery") (publicationOf "a"), .approve none (js "phase") (reviewOf "a" "1"),
    .publish (js "delivery") (publicationOf "a"), .approve none (js "phase") (reviewOf "a" "2"),
    .invalidate [js "output:discovery/map"] ⟨js "changed", js "changed", ada, none, js "3"⟩,
    .publish (js "discovery") (publicationOf "b")]

def twoOutputsCreated : Initiative :=
  { id := js "INIT-1"
    resolution := twoOutputs
    status := .inProgress
    currentPhase := some (js "discovery")
    phases := startPhases asciiHost twoOutputs 0
    contracts := []
    childStories := []
    applicability := []
    phaseOrder_eq := map_id_startPhases asciiHost twoOutputs 0 }

def twoOutputsStart : Workspace := ⟨twoOutputsCreated, [], [], []⟩

theorem exists_run_briefReplaced : ∃ past workspace,
    Run (step asciiHost) twoOutputsStart past workspace
      ∧ statusOf workspace.initiative (js "delivery") = some .approved
      ∧ recordedHash workspace.initiative (js "discovery/brief")
        ≠ inputWhenApproved (js "delivery") (js "discovery/brief") past workspace := by
  obtain ⟨past, workspace, hrun, hcheck⟩ := @Run.exists_of_runFrom_past _ _ _ (step asciiHost)
    twoOutputsStart briefReplaced (fun run =>
      statusOf run.2.initiative (js "delivery") = some .approved
        && recordedHash run.2.initiative (js "discovery/brief")
          ≠ inputWhenApproved (js "delivery") (js "discovery/brief") run.1 run.2)
    (by decide +kernel)
  rw [Bool.and_eq_true, decide_eq_true_eq, decide_eq_true_eq] at hcheck
  exact ⟨past, workspace, hrun, hcheck⟩

theorem justified_iff_briefReplaced : ∃ past workspace,
    statusOf workspace.initiative (js "delivery") = some .approved
      ∧ (Throughout Justified past workspace ↔ ∀ entry ∈ past, KeepsInputs entry.1 entry.2) := by
  obtain ⟨past, workspace, hrun, happroved, -⟩ := exists_run_briefReplaced
  exact ⟨past, workspace, happroved, justified_iff hrun⟩

/-- The delivery stays approved over a brief that it was not approved over. -/
theorem unjustified_delivery :
    createInitiative asciiHost (js "INIT-1") twoOutputs none = .ok twoOutputsCreated
      ∧ ∃ past workspace, Run (step asciiHost) twoOutputsStart past workspace
        ∧ ¬ Justified past workspace := by
  obtain ⟨past, workspace, hrun, happroved, hne⟩ := exists_run_briefReplaced
  refine ⟨rfl, past, workspace, hrun, fun hjustified => hne (hjustified _ _ happroved ?_)⟩
  have hresolution : workspace.initiative.resolution = twoOutputs := resolution_run hrun
  refine ⟨phaseWith "delivery" "plan" [js "discovery/brief"], js "plan", ?_, List.mem_cons_self⟩
  rw [hresolution]
  rfl

end Example

end Initiatives

end SingularityFlow
