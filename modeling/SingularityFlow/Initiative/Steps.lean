/-
# What the operations do

For each operation, what must hold for it to succeed and what it writes.  The
phases are taken apart at the one that is written: the lists before and after
it stay as they are.
-/
import SingularityFlow.Initiative.Operations

namespace SingularityFlow

open Ecma

namespace Initiatives

variable {host : Host}

theorem map_eq_ok_iff {α β : Type} {x : Except Failure α} {f : α → β} {b : β} :
    x.map f = .ok b ↔ ∃ a, x = .ok a ∧ f a = b := by
  cases x with
  | error e => simp [Except.map]
  | ok a => simp [Except.map]

/-! ## The phases around one of them -/

section Places

variable {initiative : Initiative} {before after : List Phase} {phase : Phase}

theorem mem_of_phase? {id : Text} (h : initiative.phase? id = some phase) :
    phase ∈ initiative.phases ∧ phase.id = id := by
  unfold Initiative.phase? at h
  exact ⟨List.mem_of_find?_eq_some h, by simpa using List.find?_some h⟩

theorem phase?_of_mem (h : phase ∈ initiative.phases) :
    initiative.phase? phase.id = some phase := by
  cases hfind : initiative.phase? phase.id with
  | none =>
      have hnone := List.find?_eq_none.mp hfind phase h
      simp at hnone
  | some found =>
      obtain ⟨hmem, hid⟩ := mem_of_phase? hfind
      rw [List.inj_on_of_nodup_map initiative.ids_nodup hmem h hid]

variable (h : initiative.phases = before ++ phase :: after)

include h

theorem ne_of_mem_before {other : Phase} (hmem : other ∈ before) : other.id ≠ phase.id := by
  have hnodup := initiative.ids_nodup
  rw [h, List.map_append, List.map_cons] at hnodup
  intro heq
  exact List.disjoint_of_nodup_append hnodup (List.mem_map_of_mem hmem)
    (by rw [heq]; exact List.mem_cons_self)

theorem ne_of_mem_after {other : Phase} (hmem : other ∈ after) : other.id ≠ phase.id := by
  have hnodup := initiative.ids_nodup
  rw [h, List.map_append, List.map_cons] at hnodup
  have htail := (List.nodup_cons.mp (List.nodup_append.mp hnodup).2.1).1
  intro heq
  exact htail (heq ▸ List.mem_map_of_mem hmem)

/-- Two ways to take the phases apart at one of them are the same. -/
theorem split_unique {before' after' : List Phase} {phase' : Phase}
    (h' : initiative.phases = before' ++ phase' :: after') (hid : phase'.id = phase.id) :
    before' = before ∧ phase' = phase ∧ after' = after := by
  have heq : before' ++ phase' :: after' = before ++ phase :: after := h'.symm.trans h
  have hnot : ∀ other ∈ before, other.id ≠ phase.id := fun _ hmem => ne_of_mem_before h hmem
  have hnot' : ∀ other ∈ before', other.id ≠ phase.id := fun _ hmem =>
    hid ▸ ne_of_mem_before h' hmem
  clear h h'
  induction before generalizing before' with
  | nil =>
      cases before' with
      | nil =>
          obtain ⟨hphase, hafter⟩ := List.cons.inj heq
          exact ⟨rfl, hphase, hafter⟩
      | cons first rest =>
          obtain ⟨hphase, -⟩ := List.cons.inj heq
          exact absurd (congrArg Phase.id hphase) (hnot' first List.mem_cons_self)
  | cons first rest ih =>
      cases before' with
      | nil =>
          obtain ⟨hphase, -⟩ := List.cons.inj heq
          exact absurd (hphase ▸ hid) (hnot first List.mem_cons_self)
      | cons first' rest' =>
          obtain ⟨hfirst, hrest⟩ := List.cons.inj heq
          obtain ⟨hbefore, hphase, hafter⟩ := ih hrest
            (fun other hmem => hnot other (List.mem_cons_of_mem _ hmem))
            (fun other hmem => hnot' other (List.mem_cons_of_mem _ hmem))
          exact ⟨by rw [hfirst, hbefore], hphase, hafter⟩

theorem update_phases (f : Phase → Phase) (hid : ∀ phase, (f phase).id = phase.id) :
    (initiative.update phase.id f hid).phases = before ++ f phase :: after := by
  have hsame : ∀ {l : List Phase}, (∀ other ∈ l, other.id ≠ phase.id) →
      l.map (fun other => if other.id = phase.id then f other else other) = l := fun hl => by
    refine (List.map_congr_left fun other hmem => ?_).trans (List.map_id _)
    exact if_neg (hl other hmem)
  show initiative.phases.map _ = _
  rw [h, List.map_append, List.map_cons, hsame fun _ hmem => ne_of_mem_before h hmem,
    hsame fun _ hmem => ne_of_mem_after h hmem, if_pos rfl]

theorem nextPhase?_eq :
    nextPhase? initiative phase.id = (after.find? (·.status ≠ .approved)).map Phase.id := by
  have hdrop : initiative.phases.dropWhile (·.id ≠ phase.id) = phase :: after := by
    rw [h, List.dropWhile_append_of_pos fun other hmem => by
      simpa using ne_of_mem_before h hmem]
    simp
  rw [nextPhase?, hdrop, List.drop_one, List.tail_cons]

theorem currentIndex_eq (hcurrent : initiative.currentPhase = some phase.id) :
    currentIndex initiative = before.length := by
  have hfind : before.findIdx (·.id = phase.id) = before.length :=
    List.findIdx_eq_length.mpr fun other hmem => by simpa using ne_of_mem_before h hmem
  rw [currentIndex, hcurrent]
  simp [h, List.findIdx_append, hfind, List.findIdx_cons]

end Places

/-! ## Approving -/

section Approving

variable {initiative : Initiative} {before after : List Phase} {phase : Phase}

/-- What follows an approved phase: the phases up to the next one are approved,
or all of them are. -/
inductive Completed (initiative : Initiative) (before : List Phase) (phase : Phase)
    (after : List Phase) : Initiative → Prop
  | next {initiative' : Initiative} {between rest : List Phase} {next : Phase} :
      after = between ++ next :: rest → (∀ other ∈ between, other.status = .approved) →
      next.status ≠ .approved →
      initiative'.phases = before ++ setStatus .approved phase :: between
        ++ setStatus .inProgress next :: rest →
      initiative'.currentPhase = some next.id → initiative'.status = initiative.status →
      initiative'.resolution = initiative.resolution →
      Completed initiative before phase after initiative'
  | done {initiative' : Initiative} :
      (∀ other ∈ after, other.status = .approved) →
      initiative'.phases = before ++ setStatus .approved phase :: after →
      initiative'.currentPhase = none → initiative'.status = .complete →
      initiative'.resolution = initiative.resolution →
      Completed initiative before phase after initiative'

theorem completePhase_completed (h : initiative.phases = before ++ phase :: after) :
    Completed initiative before phase after (completePhase initiative phase.id) := by
  have hphases := update_phases h (setStatus .approved) fun _ => rfl
  have hnext := nextPhase?_eq h
  cases hfind : after.find? (·.status ≠ .approved) with
  | none =>
      rw [hfind] at hnext
      have hall : ∀ other ∈ after, other.status = .approved := fun other hmem => by
        simpa using List.find?_eq_none.mp hfind other hmem
      have heq : completePhase initiative phase.id
          = { initiative.update phase.id (setStatus .approved) fun _ => rfl with
              currentPhase := none
              status := .complete } := by
        rw [completePhase, hnext]
        rfl
      rw [heq]
      exact .done hall hphases rfl rfl rfl
  | some next =>
      rw [hfind] at hnext
      obtain ⟨hstatus, between, rest, hafter, hbetween⟩ := List.find?_eq_some_iff_append.mp hfind
      have heq : completePhase initiative phase.id
          = { (initiative.update phase.id (setStatus .approved) fun _ => rfl).update next.id
                (setStatus .inProgress) fun _ => rfl with
              currentPhase := some next.id } := by
        rw [completePhase, hnext]
        rfl
      rw [heq]
      refine .next hafter (fun other hmem => by simpa using hbetween other hmem)
        (by simpa using hstatus) ?_ rfl rfl rfl
      have hsplit : (initiative.update phase.id (setStatus .approved) fun _ => rfl).phases
          = (before ++ setStatus .approved phase :: between) ++ next :: rest := by
        rw [hphases, hafter, List.append_assoc, List.cons_append]
      exact update_phases hsplit (setStatus .inProgress) fun _ => rfl

end Approving

/-! ## Invalidating -/

/-- A phase after the nodes that are affected were marked. -/
structure Marked (affectedPhases : List Text) (phase phase' : Phase) : Prop where
  id_eq : phase'.id = phase.id
  hashes : phase'.hashes = phase.hashes
  status : phase'.status = phase.status
    ∨ (phase.status = .approved ∧ phase'.status = .stale ∧ phase.id ∈ affectedPhases)

theorem Marked.trans {affectedPhases : List Text} {a b c : Phase} (hab : Marked affectedPhases a b)
    (hbc : Marked affectedPhases b c) : Marked affectedPhases a c := by
  refine ⟨hbc.id_eq.trans hab.id_eq, hbc.hashes.trans hab.hashes, ?_⟩
  rcases hab.status with hab' | ⟨ha, hb, hmem⟩
  · rcases hbc.status with hbc' | ⟨hb, hc, hmem⟩
    · exact .inl (hbc'.trans hab')
    · exact .inr ⟨hab' ▸ hb, hc, hab.id_eq ▸ hmem⟩
  · rcases hbc.status with hbc' | ⟨hb', hc, -⟩
    · exact .inr ⟨ha, hbc'.trans hb, hmem⟩
    · exact .inr ⟨ha, hc, hmem⟩

/-- The state after nodes were marked. -/
structure MarkedState (affectedPhases : List Text) (initiative initiative' : Initiative) : Prop where
  phases : List.Forall₂ (Marked affectedPhases) initiative.phases initiative'.phases
  currentPhase : initiative'.currentPhase = initiative.currentPhase
  status : initiative'.status = initiative.status
  resolution : initiative'.resolution = initiative.resolution

theorem forall₂_map_right {α : Type} {R : α → α → Prop} {f : α → α} {l : List α}
    (h : ∀ a ∈ l, R a (f a)) : List.Forall₂ R l (l.map f) := by
  rw [List.forall₂_map_right_iff]
  exact List.forall₂_same.mpr h

theorem markNodeStale_marked {affectedPhases : List Text} (initiative : Initiative) {node : Text}
    (hnode : ∀ phaseId, nodePhase? node = some phaseId → (initiative.phase? phaseId).isSome →
      phaseId ∈ affectedPhases) :
    MarkedState affectedPhases initiative (markNodeStale initiative node) := by
  have hsame : List.Forall₂ (Marked affectedPhases) initiative.phases initiative.phases :=
    List.forall₂_same.mpr fun phase _ => ⟨rfl, rfl, .inl rfl⟩
  simp only [markNodeStale]
  split
  · exact ⟨forall₂_map_right fun phase _ =>
      ⟨markOutputStale_id .., markOutputStale_hashes .., .inl (markOutputStale_status ..)⟩, rfl, rfl, rfl⟩
  · split
    · next htype =>
        refine ⟨forall₂_map_right fun phase hmem => ⟨markPhaseStale_id .., markPhaseStale_hashes .., ?_⟩, rfl, rfl, rfl⟩
        unfold markPhaseStale
        split
        · next h =>
            refine .inr ⟨h.2, rfl, hnode _ ?_ ?_⟩
            · rw [h.1, nodePhase?, htype]
              rfl
            · rw [phase?_of_mem hmem]
              rfl
        · exact .inl rfl
    · split
      · exact ⟨hsame, rfl, rfl, rfl⟩
      · split
        · exact ⟨hsame, rfl, rfl, rfl⟩
        · exact ⟨hsame, rfl, rfl, rfl⟩

theorem MarkedState.isSome_phase? {affectedPhases : List Text} {initiative initiative' : Initiative}
    (h : MarkedState affectedPhases initiative initiative') (id : Text) :
    (initiative'.phase? id).isSome = (initiative.phase? id).isSome := by
  have hphases := h.phases
  unfold Initiative.phase?
  generalize initiative.phases = phases at hphases
  generalize initiative'.phases = phases' at hphases
  induction hphases with
  | nil => rfl
  | cons hmarked _ ih =>
      rw [List.find?_cons, List.find?_cons, hmarked.id_eq]
      split
      · rfl
      · exact ih

theorem MarkedState.trans {affectedPhases : List Text} {a b c : Initiative}
    (hab : MarkedState affectedPhases a b) (hbc : MarkedState affectedPhases b c) :
    MarkedState affectedPhases a c := by
  refine ⟨?_, hbc.currentPhase.trans hab.currentPhase, hbc.status.trans hab.status,
    hbc.resolution.trans hab.resolution⟩
  have h := hab.phases
  have h' := hbc.phases
  generalize a.phases = as at h
  generalize b.phases = bs at h h'
  generalize c.phases = cs at h'
  clear hab hbc
  induction h generalizing cs with
  | nil =>
      cases h'
      exact .nil
  | cons hfirst _ ih =>
      cases h' with
      | cons hsecond hrest => exact .cons (hfirst.trans hsecond) (ih _ hrest)

theorem foldl_markNodeStale {affectedPhases : List Text} {nodes : List Text}
    (initiative : Initiative)
    (hnodes : ∀ node ∈ nodes, ∀ phaseId, nodePhase? node = some phaseId →
      (initiative.phase? phaseId).isSome → phaseId ∈ affectedPhases) :
    MarkedState affectedPhases initiative (nodes.foldl markNodeStale initiative) := by
  induction nodes generalizing initiative with
  | nil => exact ⟨List.forall₂_same.mpr fun phase _ => ⟨rfl, rfl, .inl rfl⟩, rfl, rfl, rfl⟩
  | cons node nodes ih =>
      obtain ⟨hfirst, hrest⟩ := List.forall_mem_cons.mp hnodes
      have hmarked := markNodeStale_marked initiative hfirst
      refine hmarked.trans (ih _ fun node' hmem phaseId hphase hsome => ?_)
      rw [hmarked.isSome_phase?] at hsome
      exact hrest node' hmem phaseId hphase hsome

theorem mem_affectedPhaseIds {initiative : Initiative} {affected : List Text} {id : Text} :
    id ∈ affectedPhaseIds initiative affected
      ↔ (∃ node ∈ affected, nodePhase? node = some id) ∧ (initiative.phase? id).isSome := by
  simp only [affectedPhaseIds, List.mem_filterMap, Option.filter_eq_some_iff]
  constructor
  · rintro ⟨node, hmem, hphase, hsome⟩
    exact ⟨⟨node, hmem, hphase⟩, hsome⟩
  · rintro ⟨⟨node, hmem, hphase⟩, hsome⟩
    exact ⟨node, hmem, hphase, hsome⟩

theorem marked_affected (initiative : Initiative) (affected : List Text) :
    MarkedState (affectedPhaseIds initiative affected) initiative
      (affected.foldl markNodeStale initiative) :=
  foldl_markNodeStale initiative fun node hmem _ hphase hsome =>
    mem_affectedPhaseIds.mpr ⟨⟨node, hmem, hphase⟩, hsome⟩

theorem affectedPhaseIds_marked (initiative : Initiative) (affected : List Text) :
    affectedPhaseIds (affected.foldl markNodeStale initiative) affected
      = affectedPhaseIds initiative affected := by
  unfold affectedPhaseIds
  refine List.filterMap_congr fun node _ => ?_
  simp only [(marked_affected initiative affected).isSome_phase?]

/-- What the rewind does, where it reopens a phase and where it does not. -/
inductive Rewound (affectedPhases : List Text) (initiative : Initiative) : Initiative → Prop
  | kept : (∀ before phase after, initiative.phases = before ++ phase :: after →
        before.length ≤ currentIndex initiative → phase.id ∉ affectedPhases) →
      Rewound affectedPhases initiative initiative
  | reopened {initiative' : Initiative} {before after : List Phase} {phase : Phase} :
      initiative.phases = before ++ phase :: after → before.length ≤ currentIndex initiative →
      (∀ other ∈ before, other.id ∉ affectedPhases) → phase.id ∈ affectedPhases →
      initiative'.phases
        = before ++ setStatus .inProgress phase :: after.map (reset affectedPhases) →
      initiative'.currentPhase = some phase.id → initiative'.status = .inProgress →
      initiative'.resolution = initiative.resolution →
      Rewound affectedPhases initiative initiative'

theorem rewindPhases_append {affectedPhases : List Text} {before after : List Phase} {phase : Phase}
    (hbefore : ∀ other ∈ before, other.id ∉ affectedPhases) (hphase : phase.id ∈ affectedPhases) :
    rewindPhases affectedPhases (before ++ phase :: after)
      = before ++ setStatus .inProgress phase :: after.map (reset affectedPhases) := by
  induction before with
  | nil =>
      rw [List.nil_append, rewindPhases, if_pos hphase]
      rfl
  | cons first rest ih =>
      obtain ⟨hfirst, hrest⟩ := List.forall_mem_cons.mp hbefore
      rw [List.cons_append, rewindPhases, if_neg hfirst, ih hrest]
      rfl

theorem rewindInvalidatedLifecycle_rewound (initiative : Initiative) (affected : List Text) :
    Rewound (affectedPhaseIds initiative affected) initiative
      (rewindInvalidatedLifecycle initiative affected) := by
  generalize hA : affectedPhaseIds initiative affected = affectedPhases
  cases hreopened : reopenedPhase? initiative affectedPhases with
  | none =>
      have heq : rewindInvalidatedLifecycle initiative affected = initiative := by
        unfold rewindInvalidatedLifecycle
        simp only [hA]
        split
        · rfl
        · next h => exact absurd (hreopened.symm.trans h) (by simp)
      rw [heq]
      refine .kept fun before phase after hsplit hle hmem => ?_
      unfold reopenedPhase? at hreopened
      split at hreopened
      · next hfind =>
          have hnot := List.findIdx?_eq_none_iff.mp hfind phase (by rw [hsplit]; simp)
          simp [hmem] at hnot
      · next earliest hfind =>
          obtain ⟨hlt, -, hbefore⟩ := List.findIdx?_eq_some_iff_getElem.mp hfind
          have hearliest : earliest ≤ before.length := by
            by_contra hgt
            have hnot := hbefore before.length (by omega)
            simp [hsplit, hmem] at hnot
          rw [if_neg (by omega)] at hreopened
          simp [hlt] at hreopened
  | some id =>
      unfold reopenedPhase? at hreopened
      split at hreopened
      · cases hreopened
      · next earliest hfind =>
          obtain ⟨hlt, hphase, hbefore⟩ := List.findIdx?_eq_some_iff_getElem.mp hfind
          split at hreopened
          · cases hreopened
          · next hle =>
              rw [List.getElem?_eq_getElem hlt, Option.map_some, Option.some.injEq] at hreopened
              have hsplit : initiative.phases = initiative.phases.take earliest
                  ++ initiative.phases[earliest] :: initiative.phases.drop (earliest + 1) := by
                rw [← List.drop_eq_getElem_cons hlt, List.take_append_drop]
              have hnot : ∀ other ∈ initiative.phases.take earliest,
                  other.id ∉ affectedPhases := fun other hmem => by
                obtain ⟨i, hi, rfl⟩ := List.mem_take_iff_getElem.mp hmem
                simpa using hbefore i (by omega)
              have hmem : initiative.phases[earliest].id ∈ affectedPhases := by simpa using hphase
              have hreopens : reopenedPhase? initiative affectedPhases
                  = some initiative.phases[earliest].id := by
                unfold reopenedPhase?
                simp [hfind, hle, hlt]
              have heq : ∃ hids, rewindInvalidatedLifecycle initiative affected
                  = { initiative with
                      phases := rewindPhases affectedPhases initiative.phases
                      currentPhase := some initiative.phases[earliest].id
                      status := .inProgress
                      phaseOrder_eq := hids } := by
                refine ⟨by rw [map_id_rewindPhases]; exact initiative.phaseOrder_eq, ?_⟩
                unfold rewindInvalidatedLifecycle
                simp only [hA]
                split
                · next h => exact absurd (hreopens.symm.trans h) (by simp)
                · next h =>
                    obtain rfl := Option.some.inj (hreopens.symm.trans h)
                    rfl
              obtain ⟨_, heq⟩ := heq
              rw [heq]
              refine .reopened hsplit ?_ hnot hmem ?_ rfl rfl rfl
              · rw [List.length_take]
                omega
              · show rewindPhases affectedPhases initiative.phases = _
                conv_lhs => rw [hsplit]
                exact rewindPhases_append hnot hmem

/-- **What an invalidation does.**  Marking keeps every status except that an
affected phase that was approved is stale; the rewind follows. -/
theorem invalidated_spec (initiative : Initiative) (affected : List Text) :
    ∃ marked, MarkedState (affectedPhaseIds initiative affected) initiative marked
      ∧ Rewound (affectedPhaseIds initiative affected) marked (invalidated initiative affected) := by
  refine ⟨_, marked_affected initiative affected, ?_⟩
  have h := rewindInvalidatedLifecycle_rewound (affected.foldl markNodeStale initiative) affected
  rwa [affectedPhaseIds_marked] at h

/-! ## When they succeed -/

section Operations

variable {workspace workspace' : Workspace} {phaseId : Text} {publication : Publication}

/-- A publication that succeeded. -/
structure Published (workspace : Workspace) (phaseId : Text) (publication : Publication)
    (phase : Phase) (outputs : List Output) (workspace' : Workspace) : Prop where
  current : workspace.initiative.currentPhase = some phaseId
  found : workspace.initiative.phase? phaseId = some phase
  inProgress : phase.status = .inProgress
  inputs : verifyInitiativePhaseInputs workspace.initiative publication.input phaseId = .ok ()
  read : sequence (phase.outputs.map (publishOutput publication (phase.generation + 1)))
    = .ok outputs
  initiative : workspace'.initiative
    = workspace.initiative.update phaseId (submit outputs) (submit_id outputs)
  approvals : workspace'.approvals = workspace.approvals
  invalidations : workspace'.invalidations = workspace.invalidations

theorem phaseOf_eq_ok {initiative : Initiative} {phase : Phase}
    (h : phaseOf initiative phaseId = .ok phase) : initiative.phase? phaseId = some phase := by
  unfold phaseOf at h
  split at h
  · cases h
  · next found hfound =>
      obtain rfl := Except.ok.inj h
      exact hfound

theorem published_of_eq_ok
    (h : publishInitiativePhase workspace phaseId publication = .ok workspace') :
    ∃ phase outputs, Published workspace phaseId publication phase outputs workspace' := by
  simp only [publishInitiativePhase, bind_eq_ok_iff, failIf_eq_ok_iff] at h
  obtain ⟨_, hcurrent, phase, hphase, _, hstatus, _, hinputs, _, -, definition, -, outputs, hread,
    _, -, _, -, h⟩ := h
  obtain rfl := Except.ok.inj h
  exact ⟨phase, outputs, not_not.mp hcurrent, phaseOf_eq_ok hphase, not_not.mp hstatus, hinputs,
    hread, rfl, rfl, rfl⟩

theorem awaitingPhase_eq_ok {operation : Text} {initiative : Initiative} {selected : Option Text}
    {phase : Phase} (h : awaitingPhase operation initiative selected = .ok phase) :
    initiative.currentPhase = some phase.id ∧ initiative.phase? phase.id = some phase
      ∧ phase.status = .awaitingApproval := by
  simp only [awaitingPhase, bind_eq_ok_iff, failIf_eq_ok_iff] at h
  obtain ⟨_, -, h⟩ := h
  split at h
  · next found hfound =>
      obtain ⟨_, hstatus, h⟩ := bind_eq_ok_iff.mp h
      rw [failIf_eq_ok_iff, not_not] at hstatus
      obtain rfl := Except.ok.inj h
      obtain ⟨id, hcurrent, hphase⟩ := Option.bind_eq_some_iff.mp hfound
      obtain ⟨-, hid⟩ := mem_of_phase? hphase
      exact ⟨hid ▸ hcurrent, hid ▸ hphase, hstatus⟩
  · cases h

/-- An approval that succeeded, up to its second reading of the records. -/
structure Admitted (host : Host) (workspace : Workspace) (phase : Phase) (review : Review)
    (bundle : Bundle) (target : Target) (subject : Text) : Prop where
  current : workspace.initiative.currentPhase = some phase.id
  found : workspace.initiative.phase? phase.id = some phase
  awaiting : phase.status = .awaitingApproval
  bundled : initiativeBundle host workspace review.surroundings phase.id = .ok bundle
  targeted : approvalSubject host workspace.initiative phase.id subject bundle = .ok target
  published : target.sha256.getD [] ≠ []
  identified : (actorEmail host review.actor).getD [] ≠ []
  admitted : admitApproval host workspace.initiative target review.actor
    (activeApprovalRecords bundle.approvals (target.key phase.id) bundle.invalidatedApprovals)
      = .ok ()

theorem admitted_of_eq_ok {selected : Option Text} {subject : Text} {review : Review}
    {approved : Approved} (h : approveInitiative host workspace selected subject review = .ok approved) :
    ∃ phase bundle target, Admitted host workspace phase review bundle target subject
      ∧ recordApproval host workspace phase target review
        (activeApprovalRecords workspace.approvals (target.key phase.id)
          bundle.invalidatedApprovals) = .ok approved := by
  simp only [approveInitiative, bind_eq_ok_iff, failIf_eq_ok_iff] at h
  obtain ⟨phase, hphase, _, -, bundle, hbundle, target, htarget, _, hpublished, _, hidentified,
    _, hadmitted, _, -, h⟩ := h
  obtain ⟨hcurrent, hfound, hstatus⟩ := awaitingPhase_eq_ok hphase
  exact ⟨phase, bundle, target, ⟨hcurrent, hfound, hstatus, hbundle, htarget, hpublished,
    hidentified, hadmitted⟩, h⟩

/-- What a recorded approval writes. -/
structure Recorded (host : Host) (workspace : Workspace) (phase : Phase) (target : Target)
    (review : Review) (current : List (Entry ApprovalRecord)) (entry : Entry ApprovalRecord)
    (approved : Approved) : Prop where
  fresh : ∀ other ∈ current,
    actorEmail host other.record.actor ≠ actorEmail host review.actor
  recorded : ∃ selfApproval, entry.record = approvalRecord workspace.initiative.id phase.id target review
    ((approvalChainProgress host target.definition current).bind ChainProgress.open?) selfApproval
  hashed : entry.sha256 = host.recordSha256 entry.record.toValue
  targeted : approved.target = target
  counted : approved.counted = current ++ [entry]
  reached : approved.reached = reachedBy host target.definition (current ++ [entry])
  initiative : approved.workspace.initiative
    = if approved.reached then settle workspace.initiative phase.id target else workspace.initiative
  approvals : approved.workspace.approvals = append workspace.approvals entry
  evidence : approved.workspace.evidence = workspace.evidence
  invalidations : approved.workspace.invalidations = workspace.invalidations

theorem recorded_of_eq_ok {phase : Phase} {target : Target} {review : Review}
    {current : List (Entry ApprovalRecord)} {approved : Approved}
    (h : recordApproval host workspace phase target review current = .ok approved) :
    ∃ entry, Recorded host workspace phase target review current entry approved := by
  simp only [recordApproval, bind_eq_ok_iff, failIf_eq_ok_iff] at h
  obtain ⟨_, hfresh, _, -, h⟩ := h
  obtain rfl := Except.ok.inj h
  refine ⟨_, ?_, ⟨_, rfl⟩, rfl, rfl, rfl, rfl, rfl, rfl, rfl, rfl⟩
  intro other hmem heq
  exact hfresh (List.any_eq_true.mpr ⟨other, hmem, by simpa using heq⟩)

/-- An invalidation that succeeded. -/
structure Invalidated (workspace : Workspace) (starts : List Text) (workspace' : Workspace) :
    Prop where
  initiative : workspace'.initiative = invalidated workspace.initiative
    (downstreamCone (buildInitiativeGraph workspace.initiative workspace.evidence
      workspace.approvals) starts)
  approvals : workspace'.approvals = workspace.approvals
  evidence : workspace'.evidence = workspace.evidence
  invalidations : ∃ entry, workspace'.invalidations = append workspace.invalidations entry

theorem invalidated_of_eq_ok {starts : List Text} {invalidation : Invalidation}
    (h : invalidateInitiativeCone host workspace starts invalidation = .ok workspace') :
    Invalidated workspace starts workspace' := by
  simp only [invalidateInitiativeCone, bind_eq_ok_iff, failIf_eq_ok_iff] at h
  obtain ⟨_, -, _, -, _, -, h⟩ := h
  obtain rfl := Except.ok.inj h
  exact ⟨rfl, rfl, rfl, _, rfl⟩

/-- The nodes that a rejection starts from are those of the current phase. -/
theorem nodePhase?_rejectionTarget {initiative : Initiative} {subject : Text}
    {target : RejectionTarget} (h : rejectionTarget initiative phaseId subject = .ok target) :
    target.node = phaseNode phaseId ∨ target.node = outputNode phaseId subject
      ∨ target.node = checkNode phaseId subject := by
  obtain ⟨phase, -, h⟩ := bind_eq_ok_iff.mp h
  split at h
  · obtain rfl := Except.ok.inj h
    exact .inl rfl
  · split at h
    · obtain rfl := Except.ok.inj h
      exact .inr (.inl rfl)
    · obtain rfl := Except.ok.inj h
      exact .inr (.inr rfl)
    · cases h

/-- A rejection that succeeded. -/
structure Rejected (host : Host) (workspace : Workspace) (subject : Text) (phase : Phase)
    (target : RejectionTarget) (between workspace' : Workspace) : Prop where
  current : workspace.initiative.currentPhase = some phase.id
  found : workspace.initiative.phase? phase.id = some phase
  awaiting : phase.status = .awaitingApproval
  targeted : rejectionTarget workspace.initiative phase.id subject = .ok target
  invalidated : ∃ entry, entry.record.decision = .rejected
    ∧ Invalidated { workspace with approvals := append workspace.approvals entry } [target.node] between
  initiative : workspace'.initiative = reopen between.initiative phase.id
  approvals : workspace'.approvals = between.approvals
  invalidations : workspace'.invalidations = between.invalidations

theorem rejected_of_eq_ok {selected : Option Text} {subject : Text} {rejection : Rejection}
    (h : rejectInitiative host workspace selected subject rejection = .ok workspace') :
    ∃ phase target between, Rejected host workspace subject phase target between workspace' := by
  simp only [rejectInitiative, bind_eq_ok_iff, failIf_eq_ok_iff] at h
  obtain ⟨_, -, phase, hphase, target, htarget, _, -, between, hbetween, h⟩ := h
  obtain rfl := Except.ok.inj h
  obtain ⟨hcurrent, hfound, hstatus⟩ := awaitingPhase_eq_ok hphase
  exact ⟨phase, target, between, hcurrent, hfound, hstatus, htarget,
    ⟨_, rfl, invalidated_of_eq_ok hbetween⟩, rfl, rfl, rfl⟩

theorem resolution_completePhase (initiative : Initiative) (phaseId : Text) :
    (completePhase initiative phaseId).resolution = initiative.resolution := by
  unfold completePhase
  simp only
  split <;> rfl

theorem resolution_invalidated (initiative : Initiative) (affected : List Text) :
    (invalidated initiative affected).resolution = initiative.resolution := by
  obtain ⟨marked, hmarked, hrewound⟩ := invalidated_spec initiative affected
  generalize invalidated initiative affected = result at hrewound
  cases hrewound with
  | kept _ => exact hmarked.resolution
  | reopened _ _ _ _ _ _ _ hresolution => exact hresolution.trans hmarked.resolution

theorem resolution_reopen (initiative : Initiative) (phaseId : Text) :
    (reopen initiative phaseId).resolution = initiative.resolution := rfl

/-- No operation changes the resolved profile. -/
theorem resolution_step {action : Action} (h : step host workspace action = .ok workspace') :
    workspace'.initiative.resolution = workspace.initiative.resolution := by
  cases action with
  | publish phaseId publication =>
      obtain ⟨phase, outputs, hpublished⟩ := published_of_eq_ok h
      rw [hpublished.initiative]
      rfl
  | approve selected subject review =>
      obtain ⟨approved, happroved, rfl⟩ := map_eq_ok_iff.mp h
      obtain ⟨phase, bundle, target, -, hrecorded⟩ := admitted_of_eq_ok happroved
      obtain ⟨entry, hrecorded⟩ := recorded_of_eq_ok hrecorded
      rw [hrecorded.initiative]
      split
      · unfold settle
        split
        · rfl
        · exact resolution_completePhase _ _
        · rfl
      · rfl
  | reject selected subject rejection =>
      obtain ⟨phase, target, between, hrejected⟩ := rejected_of_eq_ok h
      obtain ⟨entry, -, hinvalidated⟩ := hrejected.invalidated
      rw [hrejected.initiative, resolution_reopen, hinvalidated.initiative, resolution_invalidated]
  | invalidate starts invalidation =>
      rw [(invalidated_of_eq_ok h).initiative, resolution_invalidated]

theorem resolution_run {start : Workspace} {past : List (Workspace × Action)}
    (h : Run (step host) start past workspace) :
    workspace.initiative.resolution = start.initiative.resolution :=
  h.invariant (fun _ workspace => workspace.initiative.resolution = start.initiative.resolution)
    (fun _ _ => True) (fun _ _ => trivial) rfl
    fun hsame _ hstep => (resolution_step hstep).trans hsame

end Operations

end Initiatives

end SingularityFlow
