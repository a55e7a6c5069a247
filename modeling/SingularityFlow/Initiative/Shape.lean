/-
# The shape of the lifecycle

An Initiative that is entered at the first phase of its profile has exactly one
phase that has begun, the current one; those before it are approved and those
after it wait.  This holds for every profile, even where overrides let an output
consume what comes after it: such a phase cannot be published before the phase
it consumes from is approved, so that a phase with decisions has only inputs
from earlier phases (`Grounded`), and a rejection stays where it is.

The phase at which a lifecycle is entered is only started when it is the first
one.  Entered anywhere else, a lifecycle has no phase that has begun
(`lawful_iff`).
-/
import SingularityFlow.Initiative.Placement

namespace SingularityFlow

open Ecma

namespace Initiatives

variable {host : Host}

/-! ## The law of the lifecycle -/

/-- A phase that is being worked on or reviewed. -/
def begun : List PhaseStatus := [.inProgress, .awaitingApproval]

structure Shape (initiative : Initiative) : Prop where
  complete_iff : initiative.currentPhase = none ↔ initiative.status = .complete
  /-- The phases before the current one are approved or skipped, and those after
  it are not started, approved, stale or skipped. -/
  current : ∀ id, initiative.currentPhase = some id → ∃ before phase after,
    initiative.phases = before ++ phase :: after ∧ phase.id = id ∧ phase.status ∈ begun
      ∧ (∀ other ∈ before, Settled other) ∧ ∀ other ∈ after, Waiting other
  /-- Only the current phase has begun. -/
  only : ∀ id, initiative.currentPhase = some id →
    ∀ phase ∈ initiative.phases, phase.status ∈ begun ↔ phase.id = id

def graphOf (workspace : Workspace) : Graph :=
  buildInitiativeGraph workspace.initiative workspace.evidence workspace.approvals

structure Lawful (host : Host) (workspace : Workspace) : Prop where
  shape : Shape workspace.initiative
  /-- After an invalidation no affected phase up to the old current one is approved. -/
  invalidation : ∀ starts invalidation workspace',
    invalidateInitiativeCone host workspace starts invalidation = .ok workspace' →
    ∀ before phase after, workspace'.initiative.phases = before ++ phase :: after →
      before.length ≤ currentIndex workspace.initiative →
      phase.id ∈ affectedPhaseIds workspace.initiative
        (downstreamCone (graphOf workspace) starts) → phase.status ≠ .approved
  /-- The cone of some nodes is what can be reached from them. -/
  cone : ∀ starts node, node ∈ downstreamCone (graphOf workspace) starts
    ↔ ∃ start ∈ starts, Reaches (graphOf workspace).edges start node

theorem Placed.shape {initiative : Initiative} (h : Placed begun initiative) :
    Shape initiative := by
  refine ⟨h.complete_iff, h.current, fun id hid phase hmem => ?_⟩
  obtain ⟨before, current, after, hsplit, rfl, hbegun, hbefore, hafter⟩ := h.current id hid
  have hbegun' : ∀ other : Phase, Waiting other → other.status ∉ begun := fun other hwaiting => by
    simp only [Waiting, List.mem_cons, List.not_mem_nil, or_false] at hwaiting
    rcases hwaiting with hs | hs | hs | hs <;> simp [hs, begun]
  rw [hsplit] at hmem
  constructor
  · intro hphase
    rcases List.mem_append.mp hmem with hmem | hmem
    · exact absurd hphase (hbegun' phase (hbefore phase hmem).waiting)
    · rcases List.mem_cons.mp hmem with rfl | hmem
      · rfl
      · exact absurd hphase (hbegun' phase (hafter phase hmem))
  · intro heq
    rcases List.mem_append.mp hmem with hmem | hmem
    · exact absurd heq (ne_of_mem_before hsplit hmem)
    · rcases List.mem_cons.mp hmem with rfl | hmem
      · exact hbegun
      · exact absurd heq (ne_of_mem_after hsplit hmem)

/-- An affected phase that is not after the current one is reopened or reset. -/
theorem not_approved_of_affected {workspace workspace' : Workspace} {starts : List Text}
    (h : Invalidated workspace starts workspace') {before after : List Phase} {phase : Phase}
    (hsplit : workspace'.initiative.phases = before ++ phase :: after)
    (hle : before.length ≤ currentIndex workspace.initiative)
    (haffected : phase.id ∈ affectedPhaseIds workspace.initiative
      (downstreamCone (graphOf workspace) starts)) : phase.status ≠ .approved := by
  obtain ⟨marked, hmarked, hrewound⟩ := invalidated_spec workspace.initiative
    (downstreamCone (graphOf workspace) starts)
  rw [show invalidated workspace.initiative (downstreamCone (graphOf workspace) starts)
    = workspace'.initiative from h.initiative.symm] at hrewound
  generalize workspace'.initiative = result at hrewound hsplit
  cases hrewound with
  | kept hkept =>
      exact absurd haffected (hkept before phase after hsplit (by rwa [hmarked.currentIndex]))
  | reopened _ _ hbefore _ hphases _ _ _ =>
      have hmem : phase ∈ result.phases := by rw [hsplit]; simp
      rw [hphases] at hmem
      rcases List.mem_append.mp hmem with hmem | hmem
      · exact absurd haffected (hbefore phase hmem)
      · rcases List.mem_cons.mp hmem with rfl | hmem
        · simp [setStatus]
        · obtain ⟨phase', -, rfl⟩ := List.mem_map.mp hmem
          rw [reset_id] at haffected
          simp [reset, haffected]

/-! ## Phases with decisions -/

/-- A phase that was published. -/
def Touched (phase : Phase) : Prop := phase.status ∈ [.awaitingApproval, .approved, .stale]

/-- What an operation other than a publication makes of a phase. -/
structure Quieter (phase phase' : Phase) : Prop where
  id_eq : phase'.id = phase.id
  hashes : phase'.hashes = phase.hashes
  touched : Touched phase' → Touched phase
  skipped : phase'.status = .skipped → phase.status = .skipped

theorem Quieter.refl (phase : Phase) : Quieter phase phase :=
  ⟨rfl, rfl, id, id⟩

theorem Quieter.of_status {phase phase' : Phase} (hid : phase'.id = phase.id)
    (hhashes : phase'.hashes = phase.hashes)
    (hstatus : phase'.status ∈ [.notStarted, .inProgress]) : Quieter phase phase' := by
  simp only [List.mem_cons, List.not_mem_nil, or_false] at hstatus
  refine ⟨hid, hhashes, fun htouched => ?_, fun hskipped => ?_⟩
  · rcases hstatus with hs | hs <;> simp [Touched, hs] at htouched
  · rcases hstatus with hs | hs <;> simp [hs] at hskipped

theorem Quieter.trans {a b c : Phase} (hab : Quieter a b) (hbc : Quieter b c) : Quieter a c :=
  ⟨hbc.id_eq.trans hab.id_eq, hbc.hashes.trans hab.hashes,
    fun h => hab.touched (hbc.touched h), fun h => hab.skipped (hbc.skipped h)⟩

theorem Marked.quieter {affectedPhases : List Text} {phase phase' : Phase}
    (h : Marked affectedPhases phase phase') : Quieter phase phase' := by
  refine ⟨h.id_eq, h.hashes, fun htouched => ?_, fun hskipped => ?_⟩
  · rcases h.status with heq | ⟨hs, -, -⟩
    · unfold Touched at *
      rwa [← heq]
    · simp [Touched, hs]
  · rcases h.status with heq | ⟨-, hs, -⟩
    · exact heq ▸ hskipped
    · simp [hs] at hskipped

theorem forall₂_trans {α : Type} {R : α → α → Prop} (htrans : ∀ a b c, R a b → R b c → R a c)
    {as bs cs : List α} (hab : List.Forall₂ R as bs) (hbc : List.Forall₂ R bs cs) :
    List.Forall₂ R as cs := by
  induction hab generalizing cs with
  | nil =>
      cases hbc
      exact .nil
  | cons hfirst _ ih =>
      cases hbc with
      | cons hsecond hrest => exact .cons (htrans _ _ _ hfirst hsecond) (ih hrest)

/-- The state after an operation other than a publication. -/
structure QuieterState (initiative initiative' : Initiative) : Prop where
  phases : List.Forall₂ Quieter initiative.phases initiative'.phases
  resolution : initiative'.resolution = initiative.resolution

theorem QuieterState.refl (initiative : Initiative) : QuieterState initiative initiative :=
  ⟨List.forall₂_same.mpr fun phase _ => .refl phase, rfl⟩

theorem QuieterState.trans {a b c : Initiative} (hab : QuieterState a b) (hbc : QuieterState b c) :
    QuieterState a c :=
  ⟨@forall₂_trans _ Quieter (fun _ _ _ h h' => h.trans h') _ _ _ hab.phases hbc.phases,
    hbc.resolution.trans hab.resolution⟩

theorem quieter_update {initiative : Initiative} {id : Text} {f : Phase → Phase}
    (hid : ∀ phase, (f phase).id = phase.id)
    (hf : ∀ phase ∈ initiative.phases, phase.id = id → Quieter phase (f phase)) :
    QuieterState initiative (initiative.update id f hid) := by
  refine ⟨forall₂_map_right fun phase hmem => ?_, rfl⟩
  split
  · next heq => exact hf phase hmem heq
  · exact .refl phase

theorem output?_hash (phase : Phase) (id : Text) :
    (phase.output? id).bind Output.sha256 = (mapGet phase.hashes id).bind fun sha256 => sha256 := by
  rw [mapGet, Phase.hashes, List.find?_map]
  show _ = (((phase.outputs.find? (·.id = id)).map _).map _).bind _
  unfold Phase.output?
  cases phase.outputs.find? (·.id = id) <;> rfl

theorem approveOutput_hashes (outputId : Text) (phase : Phase) :
    (approveOutput outputId phase).hashes = phase.hashes := by
  simp only [Phase.hashes, approveOutput, List.map_map]
  refine List.map_congr_left fun output _ => ?_
  simp only [Function.comp_apply]
  split <;> rfl

theorem quieter_completePhase {initiative : Initiative} {phase : Phase}
    (hfound : initiative.phase? phase.id = some phase) (hstatus : phase.status = .awaitingApproval) :
    QuieterState initiative (completePhase initiative phase.id) := by
  have hfirst : QuieterState initiative
      (initiative.update phase.id (setStatus .approved) fun _ => rfl) := by
    refine quieter_update (f := setStatus .approved) (fun _ => rfl) fun other hmem heq => ?_
    obtain rfl : other = phase := by
      have hother := phase?_of_mem hmem
      rw [heq, hfound] at hother
      exact (Option.some.inj hother).symm
    exact ⟨rfl, rfl, fun _ => by simp [Touched, hstatus], fun h => by simp [setStatus] at h⟩
  unfold completePhase
  simp only
  split
  · next nextId _ =>
      have hsecond : QuieterState (initiative.update phase.id (setStatus .approved) fun _ => rfl)
          ((initiative.update phase.id (setStatus .approved) fun _ => rfl).update nextId
            (setStatus .inProgress) fun _ => rfl) :=
        quieter_update (f := setStatus .inProgress) (fun _ => rfl)
          fun _ _ _ => .of_status rfl rfl (by simp [setStatus])
      exact ⟨(hfirst.trans hsecond).phases, rfl⟩
  · exact ⟨hfirst.phases, rfl⟩

theorem quieter_invalidated (initiative : Initiative) (affected : List Text) :
    QuieterState initiative (invalidated initiative affected) := by
  obtain ⟨marked, hmarked, hrewound⟩ := invalidated_spec initiative affected
  have hfirst : QuieterState initiative marked :=
    ⟨hmarked.phases.imp fun _ _ h => h.quieter, hmarked.resolution⟩
  generalize invalidated initiative affected = result at hrewound ⊢
  cases hrewound with
  | kept _ => exact hfirst
  | reopened hsplit _ _ _ hphases _ _ hresolution =>
      refine hfirst.trans ⟨?_, hresolution⟩
      rw [hphases, hsplit]
      refine List.rel_append (List.forall₂_same.mpr fun phase _ => .refl phase) (.cons ?_ ?_)
      · exact .of_status rfl rfl (by simp [setStatus])
      · refine forall₂_map_right fun phase _ => ?_
        unfold reset
        split
        · exact .of_status rfl rfl (by simp)
        · exact .refl phase

theorem quieter_reopen (initiative : Initiative) (phaseId : Text) :
    QuieterState initiative (reopen initiative phaseId) :=
  ⟨(quieter_update (f := setStatus .inProgress) (fun _ => rfl)
    fun _ _ _ => .of_status rfl rfl (by simp [setStatus])).phases, rfl⟩

/-- Every operation but a publication is quiet. -/
theorem published_or_quieter {workspace workspace' : Workspace} {action : Action}
    (hstep : step host workspace action = .ok workspace') :
    (∃ phaseId publication phase outputs, action = .publish phaseId publication
        ∧ Published workspace phaseId publication phase outputs workspace')
      ∨ (∀ phaseId publication, action ≠ .publish phaseId publication)
        ∧ QuieterState workspace.initiative workspace'.initiative := by
  cases action with
  | publish phaseId publication =>
      obtain ⟨phase, outputs, hpublished⟩ := published_of_eq_ok hstep
      exact .inl ⟨_, _, phase, outputs, rfl, hpublished⟩
  | approve selected subject review =>
      refine .inr ⟨fun _ _ h => Action.noConfusion h, ?_⟩
      obtain ⟨approved, happroved, rfl⟩ := map_eq_ok_iff.mp hstep
      obtain ⟨phase, bundle, target, hadmitted, hrecorded⟩ := admitted_of_eq_ok happroved
      obtain ⟨entry, hrecorded⟩ := recorded_of_eq_ok hrecorded
      rw [hrecorded.initiative]
      split
      · unfold settle
        split
        · exact quieter_update (f := approveOutput target.id) (fun _ => rfl)
            fun other _ _ => ⟨rfl, approveOutput_hashes target.id other, fun h => h, fun h => h⟩
        · exact quieter_completePhase hadmitted.found hadmitted.awaiting
        · exact .refl _
      · exact .refl _
  | reject selected subject rejection =>
      refine .inr ⟨fun _ _ h => Action.noConfusion h, ?_⟩
      obtain ⟨phase, target, between, hrejected⟩ := rejected_of_eq_ok hstep
      obtain ⟨entry, -, hinvalidated⟩ := hrejected.invalidated
      rw [hrejected.initiative, hinvalidated.initiative]
      exact (quieter_invalidated _ _).trans (quieter_reopen _ _)
  | invalidate starts invalidation =>
      rw [(invalidated_of_eq_ok hstep).initiative]
      exact .inr ⟨fun _ _ h => Action.noConfusion h, quieter_invalidated _ _⟩

/-- A published phase, and those before it, consume only what comes before them;
and no phase is skipped. -/
structure Grounded (initiative : Initiative) : Prop where
  inputs : ∀ before phase after, initiative.phases = before ++ phase :: after → Touched phase →
    InputsEarlier initiative.resolution (before.length + 1)
  unskipped : ∀ phase ∈ initiative.phases, phase.status ≠ .skipped

theorem InputsEarlier.mono {resolution : Resolution} {count count' : Nat}
    (h : InputsEarlier resolution count) (hle : count' ≤ count) : InputsEarlier resolution count' :=
  fun before definition after hsplit hlt => h before definition after hsplit (by omega)

theorem Grounded.quieter {initiative initiative' : Initiative} (h : Grounded initiative)
    (hquieter : QuieterState initiative initiative') : Grounded initiative' := by
  constructor
  · intro before phase after hsplit htouched
    have hflip := List.Forall₂.flip hquieter.phases
    rw [hsplit] at hflip
    obtain ⟨before', phase', after', hsplit', hbefore, hphase, -⟩ := forall₂_split hflip
    rw [hquieter.resolution, hbefore.length_eq]
    exact h.inputs before' phase' after' hsplit' (hphase.touched htouched)
  · exact forall_of_forall₂ hquieter.phases h.unskipped fun _ _ hq hn hs => hn (hq.skipped hs)

/-- What is behind the current phase was published. -/
theorem Grounded.inputsEarlier {initiative : Initiative} {allowed : List PhaseStatus}
    (h : Grounded initiative) (hplaced : Placed allowed initiative) :
    InputsEarlier initiative.resolution (currentIndex initiative) := by
  have hbehind : ∀ before after : List Phase, initiative.phases = before ++ after →
      (∀ phase ∈ before, Settled phase) → InputsEarlier initiative.resolution before.length :=
    fun before after hsplit hsettled => by
      rcases List.eq_nil_or_concat before with rfl | ⟨first, last, rfl⟩
      · exact fun _ _ _ _ hlt => absurd hlt (Nat.not_lt_zero _)
      · rw [List.concat_eq_append] at *
        have hlast := hsettled last (by simp)
        have hstatus : last.status = .approved := by
          have hnot := h.unskipped last (by rw [hsplit]; simp)
          simpa [Settled, hnot] using hlast
        simpa using h.inputs first last after (by simp [hsplit]) (by simp [Touched, hstatus])
  cases hcurrent : initiative.currentPhase with
  | none =>
      rw [currentIndex_of_none hcurrent]
      exact hbehind initiative.phases [] (by simp) (hplaced.finished hcurrent)
  | some id =>
      obtain ⟨before, phase, after, hsplit, rfl, -, hbefore, -⟩ := hplaced.current id hcurrent
      rw [currentIndex_eq hsplit hcurrent]
      exact hbehind before (phase :: after) hsplit hbefore

theorem requireApprovedProducer_eq_ok_iff {initiative : Initiative} {phaseId outputId reference : Text}
    {u : Unit} : requireApprovedProducer initiative phaseId outputId reference = .ok u
      ↔ producerStatus initiative reference = some .approved := by
  rw [requireApprovedProducer, failIf_eq_ok_iff, not_not]

/-- A publication verifies that the phases it consumes from are approved. -/
theorem producer_approved {initiative : Initiative} {input : Text → Except Failure (Option Text)}
    {phaseId : Text} (h : verifyInitiativePhaseInputs initiative input phaseId = .ok ())
    {definition : PhaseDefinition} (hdefinition : initiative.resolution.phase? phaseId = some definition) :
    ∀ reference ∈ definition.inputs, producerStatus initiative reference.2 = some .approved := by
  intro reference hmem
  simp only [verifyInitiativePhaseInputs, phaseDefinition, hdefinition, bind_eq_ok_iff] at h
  obtain ⟨_, heq, verified, hverified, -⟩ := h
  obtain rfl := Except.ok.inj heq
  have hall := sequence_eq_ok hverified
  have hmem' : verifyInput initiative input phaseId reference.1 reference.2
      ∈ verified.map (Except.ok (ε := Failure)) := by
    rw [← hall]
    exact List.mem_map_of_mem hmem
  obtain ⟨_, -, hok⟩ := List.mem_map.mp hmem'
  obtain ⟨_, hstatus, -⟩ := bind_eq_ok_iff.mp hok.symm
  exact requireApprovedProducer_eq_ok_iff.mp hstatus

theorem resolution_phase?_of_mem {resolution : Resolution} {definition : PhaseDefinition}
    (h : definition ∈ resolution.phases) : resolution.phase? definition.id = some definition := by
  cases hfind : resolution.phase? definition.id with
  | none =>
      have hnone := List.find?_eq_none.mp hfind definition h
      simp at hnone
  | some found =>
      unfold Resolution.phase? at hfind
      have hid : found.id = definition.id := by simpa using List.find?_some hfind
      rw [List.inj_on_of_nodup_map resolution.ids_nodup (List.mem_of_find?_eq_some hfind) h hid]

/-- Where one of two elements stands in a list that is split at both. -/
theorem split_cases {α : Type} {first rest before after : List α} {a b : α}
    (h : first ++ a :: rest = before ++ b :: after) :
    (∃ between, before = first ++ a :: between) ∨ (first = before ∧ a = b)
      ∨ ∃ between, first = before ++ b :: between ∧ after = between ++ a :: rest := by
  rcases List.append_eq_append_iff.mp h with ⟨between, hbefore, htail⟩ | ⟨between, hfirst, htail⟩
  · cases between with
    | nil => exact .inr (.inl ⟨by simpa using hbefore.symm, (List.cons.inj htail).1⟩)
    | cons c between =>
        obtain ⟨rfl, -⟩ := List.cons.inj htail
        exact .inl ⟨between, hbefore⟩
  · cases between with
    | nil => exact .inr (.inl ⟨by simpa using hfirst, (List.cons.inj htail).1.symm⟩)
    | cons c between =>
        obtain ⟨rfl, hafter⟩ := List.cons.inj htail
        exact .inr (.inr ⟨between, hfirst, hafter⟩)

theorem Grounded.published {workspace workspace' : Workspace} {phaseId : Text}
    {publication : Publication} {phase : Phase} {outputs : List Output}
    (h : Grounded workspace.initiative) (hplaced : Placed begun workspace.initiative)
    (hpublished : Published workspace phaseId publication phase outputs workspace') :
    Grounded workspace'.initiative := by
  obtain ⟨hmem, rfl⟩ := mem_of_phase? hpublished.found
  obtain ⟨before, after, hsplit⟩ := List.append_of_mem hmem
  have hphases := update_phases hsplit (submit outputs) (submit_id outputs)
  have hbehind := h.inputsEarlier hplaced
  rw [currentIndex_eq hsplit hpublished.current] at hbehind
  -- the phase that is published consumes what is approved, which comes before it
  have hupto : InputsEarlier workspace.initiative.resolution (before.length + 1) := by
    intro first definition rest hdefinitions hlt input hinput
    rcases Nat.lt_or_eq_of_le (Nat.le_of_lt_succ hlt) with hlt | heq
    · exact hbehind first definition rest hdefinitions hlt input hinput
    · obtain ⟨first', definition', rest', hdefinitions', hfirst', hid, -⟩ :=
        exists_definitions hsplit
      have hlength : first.length = first'.length := by
        rw [heq]
        simpa using (congrArg List.length hfirst').symm
      obtain ⟨rfl, htail⟩ := List.append_inj (hdefinitions.symm.trans hdefinitions') hlength
      obtain ⟨rfl, rfl⟩ := List.cons.inj htail
      have hfound := resolution_phase?_of_mem
        (show definition ∈ workspace.initiative.resolution.phases by simp [hdefinitions])
      rw [hid] at hfound
      have hstatus := producer_approved hpublished.inputs hfound input hinput
      obtain ⟨producer, hproducer, happroved⟩ := Option.map_eq_some_iff.mp hstatus
      obtain ⟨hproducerMem, hproducerId⟩ := mem_of_phase? hproducer
      rw [hsplit] at hproducerMem
      rcases List.mem_append.mp hproducerMem with hin | hin
      · rw [hfirst', ← hproducerId]
        exact List.mem_map_of_mem hin
      · rcases List.mem_cons.mp hin with rfl | hin
        · exact absurd happroved (by simp [hpublished.inProgress])
        · obtain ⟨between, later, hafter⟩ := List.append_of_mem hin
          have hlater := h.inputs (before ++ phase :: between) producer later
            (by simp [hsplit, hafter]) (by simp [Touched, happroved])
          exact hlater first definition rest hdefinitions (by simp [heq]) input hinput
  rw [hpublished.initiative]
  constructor
  · intro first other rest hsplit' htouched
    rw [hphases] at hsplit'
    rcases split_cases hsplit'.symm with ⟨between, hbefore⟩ | ⟨rfl, rfl⟩ | ⟨between, rfl, hafter⟩
    · exact h.inputs first other (between ++ phase :: after) (by simp [hsplit, hbefore]) htouched
    · exact hupto
    · have hinputs := h.inputs (before ++ phase :: between) other rest (by simp [hsplit, hafter])
        htouched
      show InputsEarlier workspace.initiative.resolution _
      simpa using hinputs
  · intro other hother
    rw [hphases] at hother
    rcases List.mem_append.mp hother with hin | hin
    · exact h.unskipped other (by rw [hsplit]; simp [hin])
    · rcases List.mem_cons.mp hin with rfl | hin
      · simp [submit]
      · exact h.unskipped other (by rw [hsplit]; simp [hin])

theorem Grounded.step {workspace workspace' : Workspace} {action : Action}
    (h : Grounded workspace.initiative) (hplaced : Placed begun workspace.initiative)
    (hstep : step host workspace action = .ok workspace') : Grounded workspace'.initiative := by
  rcases published_or_quieter hstep with ⟨_, _, _, _, -, hpublished⟩ | ⟨-, hquieter⟩
  · exact h.published hplaced hpublished
  · exact h.quieter hquieter

theorem Created.grounded {resolution : Resolution} {initiative : Initiative}
    (h : Created host resolution 0 initiative) : Grounded initiative := by
  obtain ⟨before, phase, after, hsplit, -, hlength, hphase, -, hafter⟩ := h.split
  obtain rfl := List.eq_nil_of_length_eq_zero hlength
  have hstatus : phase.status = .inProgress := hphase
  have hnone : ∀ other ∈ initiative.phases, other.status ∈ [.notStarted, .inProgress] :=
    fun other hmem => by
      rw [hsplit] at hmem
      rcases List.mem_cons.mp hmem with rfl | hmem
      · simp [hstatus]
      · simp [hafter other hmem]
  constructor
  · intro first other rest hother htouched
    have hstart := hnone other (by rw [hother]; simp)
    simp only [List.mem_cons, List.not_mem_nil, or_false] at hstart
    rcases hstart with hs | hs <;> simp [Touched, hs] at htouched
  · intro other hmem hskipped
    have hstart := hnone other hmem
    simp [hskipped] at hstart

/-! ## Every run -/

theorem lawful_of_placed {workspace : Workspace} (h : Placed begun workspace.initiative) :
    Lawful host workspace :=
  ⟨h.shape, fun _ _ _ hok _ _ _ hsplit hle hmem =>
    not_approved_of_affected (invalidated_of_eq_ok hok) hsplit hle hmem,
    fun _ _ => mem_downstreamCone_iff⟩

/-- **The shape of the lifecycle.**  Every state that publications, approvals,
rejections and invalidations lead to has the shape exactly when the Initiative is
entered at the first phase of its profile. -/
theorem lawful_iff {id : Text} {resolution : Resolution} {startPhase : Option Text}
    {start : Workspace}
    (hstart : createInitiative host id resolution startPhase = .ok start.initiative) :
    (∀ past workspace, Run (step host) start past workspace → Lawful host workspace)
      ↔ entryIndex resolution startPhase = some 0 := by
  obtain ⟨entry, hentry, hcreated⟩ := created_of_eq_ok hstart
  constructor
  · intro hall
    have hshape := (hall [] start .start).shape
    obtain ⟨before, phase, after, hsplit, hcurrent, hlength, hphase, -, -⟩ := hcreated.split
    have hbegun := (hshape.only phase.id hcurrent phase (by rw [hsplit]; simp)).mpr rfl
    rw [hentry]
    by_contra hne
    have hpos : entry ≠ 0 := fun heq => hne (by rw [heq])
    simp [hphase, startStatus, hpos, begun] at hbegun
  · intro hfirst past workspace hrun
    obtain rfl : entry = 0 := Option.some.inj (hentry.symm.trans hfirst)
    have hinvariant := hrun.invariant
      (fun _ workspace => Placed begun workspace.initiative ∧ Grounded workspace.initiative)
      (fun _ _ => True) (fun _ _ => trivial)
      ⟨hcreated.placed (by simp [startStatus, begun]), hcreated.grounded⟩
      fun h _ hstep =>
        ⟨h.1.step (by simp [begun]) (by simp [begun]) (h.2.inputsEarlier h.1) hstep, h.2.step h.1 hstep⟩
    exact lawful_of_placed hinvariant.1

section Example

/-- A host with ASCII tables. -/
def asciiHost : Host :=
  { tables := asciiTables
    localeLe := leUnits
    parseDate := fun _ => none
    joinPath := joinWith (js "/")
    recordSha256 }

def leadsApprove : ApprovalPolicy := ⟨.bundle, [js "leads"], 1, true, none⟩

def phaseWith (id output : String) (consumes : List Text) : PhaseDefinition :=
  { id := js id
    outputs := [⟨js output, js output, consumes, true, leadsApprove⟩]
    checklist := []
    bundleApproval := leadsApprove }

def ada : Actor := ⟨some (js "Ada"), some (js "ada@example.com")⟩

/-- Every file has one content. -/
def publicationOf (content : String) : Publication :=
  { actor := ada
    input := fun _ => .ok (some (js "a"))
    refusal := none
    file := fun _ => .ok (some (js content))
    laterRefusal := none
    evidence := [] }

def reviewOf (content recordedAt : String) : Review :=
  { actor := ada
    agent := none
    channel := js "terminal"
    recordedAt := js recordedAt
    surroundings :=
      { now := 0
        file := fun _ => .ok (some (js content))
        authoring := []
        storySpecifications := .ok [] } }

/-- Two phases, of which the second consumes the output of the first. -/
def twoPhases : Resolution :=
  { id := js "two-phases"
    phases := [phaseWith "discovery" "brief" [], phaseWith "delivery" "plan" [js "discovery/brief"]]
    packs := []
    approvalAuthorities := [(js "leads", [js "ada@example.com"])]
    nonempty := List.cons_ne_nil _ _
    ids_nodup := by decide
    ids_safe := by decide }

/-- The lifecycle of an Initiative that is entered at its second phase. -/
def enteredAtDelivery : Initiative :=
  { id := js "INIT-1"
    resolution := twoPhases
    status := .inProgress
    currentPhase := some (js "delivery")
    phases := startPhases asciiHost twoPhases 1
    contracts := []
    childStories := []
    applicability := []
    phaseOrder_eq := map_id_startPhases asciiHost twoPhases 1 }

def startAtDelivery : Workspace := ⟨enteredAtDelivery, [], [], []⟩

theorem createInitiative_enteredAtDelivery :
    createInitiative asciiHost (js "INIT-1") twoPhases (some (js "delivery"))
      = .ok enteredAtDelivery := rfl

theorem lawful_iff_enteredAtDelivery :
    (∀ past workspace, Run (step asciiHost) startAtDelivery past workspace →
        Lawful asciiHost workspace)
      ↔ entryIndex twoPhases (some (js "delivery")) = some 0 :=
  @lawful_iff asciiHost (js "INIT-1") twoPhases (some (js "delivery")) startAtDelivery
    createInitiative_enteredAtDelivery

/-- No phase has begun. -/
theorem not_lawful_enteredAtDelivery :
    createInitiative asciiHost (js "INIT-1") twoPhases (some (js "delivery")) = .ok enteredAtDelivery
      ∧ ¬ Lawful asciiHost startAtDelivery := by
  refine ⟨rfl, fun h => ?_⟩
  have hbegun := h.shape.only (js "delivery") rfl
    (phaseState asciiHost (phaseWith "delivery" "plan" [js "discovery/brief"]) 1)
    (List.mem_cons_of_mem _ List.mem_cons_self)
  exact absurd (hbegun.mpr rfl) (by decide)

end Example

end Initiatives

end SingularityFlow
