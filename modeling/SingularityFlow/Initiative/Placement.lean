/-
# Where the lifecycle stands

In every state the phases before the current one are approved or skipped, and
none after it has begun (`Placed`).  Publishing, approving and invalidating
keep this whatever they are given.  Rejecting takes the current phase up again
after its cone was invalidated, and keeps it when that cone reaches no phase
before the current one: when those phases consume only what comes before them
(`InputsEarlier`).
-/
import SingularityFlow.Initiative.Steps
import Mathlib.Data.List.TakeWhile

namespace SingularityFlow

open Ecma

namespace Initiatives

variable {host : Host}

/-! ## Nodes and their phases -/

section Nodes

variable {id reference : Text}

theorem isSafeUnit_ne {u : UInt16} (h : isSafeUnit u = true) : u ≠ 0x3A ∧ u ≠ 0x2F := by
  constructor
  · rintro rfl
    exact absurd h (by decide)
  · rintro rfl
    exact absurd h (by decide)

theorem isSafeUnit_of_isSafeId (h : isSafeId id = true) : ∀ u ∈ id, isSafeUnit u = true := by
  cases id with
  | nil => exact fun u hu => absurd hu List.not_mem_nil
  | cons u rest =>
      simp only [isSafeId, Bool.and_eq_true, List.all_eq_true] at h
      exact List.forall_mem_cons.mpr ⟨h.1.1.1, h.2⟩

theorem takeWhile_ne_append {u : UInt16} {t rest : Text} (h : ∀ v ∈ t, v ≠ u) :
    (t ++ u :: rest).takeWhile (· ≠ u) = t := by
  rw [List.takeWhile_append_of_pos fun v hv => by simpa using h v hv]
  simp

theorem takeWhile_ne_self {u : UInt16} {t : Text} (h : ∀ v ∈ t, v ≠ u) :
    t.takeWhile (· ≠ u) = t :=
  List.takeWhile_eq_self_iff.mpr fun v hv => by simpa using h v hv

theorem dropWhile_ne_append {u : UInt16} {t rest : Text} (h : ∀ v ∈ t, v ≠ u) :
    (t ++ u :: rest).dropWhile (· ≠ u) = u :: rest := by
  rw [List.dropWhile_append_of_pos fun v hv => by simpa using h v hv]
  simp

/-- The types of the nodes. -/
def nodeTypes : List String :=
  ["phase", "output", "check", "story", "approval", "evidence", "contract", "pack"]

theorem ne_colon_of_mem_nodeTypes {type : String} (htype : type ∈ nodeTypes) :
    ∀ v ∈ js type, v ≠ 0x3A := by
  have h : (nodeTypes.all fun type => (js type).all (· ≠ 0x3A)) = true := rfl
  intro v hv
  simpa using List.all_eq_true.mp (List.all_eq_true.mp h type htype) v hv

theorem nodeType_initiativeNode {type : String} (htype : type ∈ nodeTypes) (parts : List Text) : nodeType (initiativeNode type parts) = js type :=
  takeWhile_ne_append (ne_colon_of_mem_nodeTypes htype)

theorem nodeReference_initiativeNode {type : String} (htype : type ∈ nodeTypes) (parts : List Text) :
    nodeReference (initiativeNode type parts) = (joinWith [0x2F] parts).takeWhile (· ≠ 0x3A) := by
  rw [nodeReference, initiativeNode, dropWhile_ne_append (ne_colon_of_mem_nodeTypes htype)]
  rfl

/-- A node of a phase is one of the phase that its first part names. -/
theorem nodePhase?_pair {type : String} (htype : type ∈ ["output", "check"])
    (hid : ∀ u ∈ id, u ≠ 0x2F) (part : Text) :
    nodePhase? (initiativeNode type [id, part]) = some (id.takeWhile (· ≠ 0x3A)) := by
  obtain ⟨hmem, hkind⟩ : type ∈ nodeTypes ∧ js type ∈ [js "phase", js "output", js "check"] := by
    rcases List.mem_cons.mp htype with rfl | htype
    · simp [nodeTypes]
    · obtain rfl := List.mem_singleton.mp htype
      simp [nodeTypes]
  rw [nodePhase?, nodeType_initiativeNode hmem, if_pos hkind, nodeReference_initiativeNode hmem]
  simp only [joinWith, referencePhase]
  congr 1
  by_cases hcolon : ∀ u ∈ id, u ≠ 0x3A
  · rw [takeWhile_ne_self hcolon, List.append_assoc,
      List.takeWhile_append_of_pos fun v hv => by simpa using hcolon v hv, List.singleton_append,
      List.takeWhile_cons_of_pos (by decide)]
    exact takeWhile_ne_append hid
  · have hcut : (id ++ [0x2F] ++ part).takeWhile (· ≠ 0x3A) = id.takeWhile (· ≠ 0x3A) := by
      rw [List.append_assoc, List.takeWhile_append, if_neg]
      intro hlen
      refine hcolon fun u hu => ?_
      have hself : id.takeWhile (· ≠ 0x3A) = id :=
        (List.takeWhile_prefix _).eq_of_length hlen
      simpa using List.takeWhile_eq_self_iff.mp hself u hu
    rw [hcut]
    exact takeWhile_ne_self fun v hv => hid v (List.takeWhile_prefix _ |>.subset hv)

theorem safe_ne (hsafe : isSafeId id = true) : (∀ u ∈ id, u ≠ 0x3A) ∧ ∀ u ∈ id, u ≠ 0x2F :=
  ⟨fun u hu => (isSafeUnit_ne (isSafeUnit_of_isSafeId hsafe u hu)).1,
    fun u hu => (isSafeUnit_ne (isSafeUnit_of_isSafeId hsafe u hu)).2⟩

theorem nodePhase?_phaseNode (hsafe : isSafeId id = true) : nodePhase? (phaseNode id) = some id := by
  obtain ⟨hcolon, hslash⟩ := safe_ne hsafe
  rw [nodePhase?, phaseNode, nodeType_initiativeNode (by simp [nodeTypes]), if_pos (by simp),
    nodeReference_initiativeNode (by simp [nodeTypes])]
  simp only [joinWith, referencePhase]
  rw [takeWhile_ne_self hcolon, takeWhile_ne_self hslash]

theorem nodePhase?_outputNode (hsafe : isSafeId id = true) (outputId : Text) :
    nodePhase? (outputNode id outputId) = some id := by
  obtain ⟨hcolon, hslash⟩ := safe_ne hsafe
  rw [outputNode, nodePhase?_pair (by simp) hslash, takeWhile_ne_self hcolon]

theorem nodePhase?_checkNode (hsafe : isSafeId id = true) (checkId : Text) :
    nodePhase? (checkNode id checkId) = some id := by
  obtain ⟨hcolon, hslash⟩ := safe_ne hsafe
  rw [checkNode, nodePhase?_pair (by simp) hslash, takeWhile_ne_self hcolon]

theorem nodePhase?_referenceNode (reference : Text) :
    nodePhase? (referenceNode reference)
      = some ((referencePhase reference).takeWhile (· ≠ 0x3A)) :=
  nodePhase?_pair (by simp) (fun u hu => by simpa using List.mem_takeWhile_imp hu) _

end Nodes

/-! ## The cone of a phase -/

/-- The first phases of a profile consume only what comes before them. -/
def InputsEarlier (resolution : Resolution) (count : Nat) : Prop :=
  ∀ before definition after, resolution.phases = before ++ definition :: after →
    before.length < count →
    ∀ input ∈ definition.inputs, referencePhase input.2 ∈ before.map PhaseDefinition.id

/-- A node of one of some phases, or an approval. -/
def Later (ids : List Text) (node : Text) : Prop :=
  nodeType node = js "approval" ∨ ∃ id ∈ ids, nodePhase? node = some id

theorem not_later {ids : List Text} {type : String} (parts : List Text)
    (htype : type ∈ ["evidence", "contract", "story"]) :
    ¬ Later ids (initiativeNode type parts) := by
  have hmem : type ∈ nodeTypes := by
    simp only [List.mem_cons, List.not_mem_nil, or_false] at htype
    rcases htype with rfl | rfl | rfl <;> simp [nodeTypes]
  have hkinds : (["evidence", "contract", "story"].all fun type =>
      js type ≠ js "approval" && js type ∉ [js "phase", js "output", js "check"]) = true := rfl
  have hkind := List.all_eq_true.mp hkinds type htype
  simp only [Bool.and_eq_true, decide_eq_true_eq] at hkind
  rintro (h | ⟨id, -, h⟩)
  · exact hkind.1 ((nodeType_initiativeNode hmem parts).symm.trans h)
  · rw [nodePhase?, nodeType_initiativeNode hmem, if_neg hkind.2] at h
    cases h

theorem phases_ne_approval {type : String} (htype : type ∈ ["phase", "output", "check"])
    (parts : List Text) : nodeType (initiativeNode type parts) ≠ js "approval" := by
  have hmem : type ∈ nodeTypes := by
    simp only [List.mem_cons, List.not_mem_nil, or_false] at htype
    rcases htype with rfl | rfl | rfl <;> simp [nodeTypes]
  have hkinds : (["phase", "output", "check"].all fun type => js type ≠ js "approval") = true := rfl
  rw [nodeType_initiativeNode hmem]
  simpa using List.all_eq_true.mp hkinds type htype

theorem mem_of_later {ids : List Text} {node id : Text} (h : Later ids node)
    (hne : nodeType node ≠ js "approval") (hphase : nodePhase? node = some id) : id ∈ ids := by
  obtain ⟨other, hmem, hother⟩ := h.resolve_left hne
  rwa [Option.some.inj (hphase.symm.trans hother)]

section Cone

variable {initiative : Initiative} {before after : List PhaseDefinition} {definition : PhaseDefinition}

/-- **No edge leads back.**  Where the phases before some phase consume only
what comes before them, the edges from a node of that phase, or of one after it,
lead to nodes of such phases. -/
theorem later_of_mem_edges
    (hsplit : initiative.resolution.phases = before ++ definition :: after)
    (hearlier : InputsEarlier initiative.resolution before.length)
    {evidence : List (Entry EvidenceRecord)} {approvals : List (Entry ApprovalRecord)} :
    ∀ edge ∈ (buildInitiativeGraph initiative evidence approvals).edges,
      Later ((definition :: after).map PhaseDefinition.id) edge.1 →
      Later ((definition :: after).map PhaseDefinition.id) edge.2 := by
  intro edge hedge hlater
  simp only [buildInitiativeGraph, List.mem_append, List.mem_flatMap, List.mem_map] at hedge
  rcases hedge with (((⟨phase, hphase, hedge⟩ | ⟨entry, -, rfl⟩) | ⟨entry, -, rfl⟩)
    | ⟨contract, -, hedge⟩) | ⟨story, -, hedge⟩
  · have hsafe := initiative.resolution.ids_safe phase hphase
    simp only [phaseEdges, List.mem_append, List.mem_flatMap, List.mem_cons, List.mem_map] at hedge
    rcases hedge with ⟨output, houtput, rfl | ⟨reference, hreference, rfl⟩⟩ | ⟨check, -, rfl⟩
    · refine .inr ⟨phase.id, ?_, nodePhase?_phaseNode hsafe⟩
      exact mem_of_later hlater (phases_ne_approval (by simp) _) (nodePhase?_outputNode hsafe _)
    · refine .inr ⟨phase.id, ?_, nodePhase?_outputNode hsafe _⟩
      have hproducer := mem_of_later hlater (phases_ne_approval (by simp) _)
        (nodePhase?_referenceNode reference)
      rw [hsplit] at hphase
      rcases List.mem_append.mp hphase with hphase | hphase
      · -- an earlier phase consumes what comes before it, which is not of these
        exfalso
        obtain ⟨first, rest, rfl⟩ := List.append_of_mem hphase
        have hinput : (output.id, reference) ∈ phase.inputs :=
          List.mem_flatMap.mpr ⟨output, houtput, List.mem_map_of_mem hreference⟩
        have hmem := hearlier first phase (rest ++ definition :: after) (by simp [hsplit])
          (by simp) (output.id, reference) hinput
        obtain ⟨producer, hproducerMem, hproducerId⟩ := List.mem_map.mp hmem
        have hsafe' := initiative.resolution.ids_safe producer (by simp [hsplit, hproducerMem])
        simp only at hproducerId
        rw [← hproducerId, takeWhile_ne_self (safe_ne hsafe').1] at hproducer
        have hnodup := initiative.resolution.ids_nodup
        rw [hsplit, List.map_append] at hnodup
        refine List.disjoint_of_nodup_append hnodup ?_ hproducer
        exact List.mem_map_of_mem (List.mem_append_left _ hproducerMem)
      · exact List.mem_map_of_mem hphase
    · refine .inr ⟨phase.id, ?_, nodePhase?_phaseNode hsafe⟩
      exact mem_of_later hlater (phases_ne_approval (by simp) _) (nodePhase?_checkNode hsafe _)
  · exact absurd hlater (not_later _ (by simp))
  · exact .inl (nodeType_initiativeNode (by simp [nodeTypes]) _)
  · simp only [contractEdges, List.mem_append, List.mem_map] at hedge
    rcases hedge with ⟨_, -, rfl⟩ | ⟨_, -, rfl⟩
    · exact absurd hlater (not_later _ (by simp))
    · exact absurd hlater (not_later _ (by simp))
  · simp only [storyEdges, List.mem_append, List.mem_map] at hedge
    rcases hedge with ⟨_, -, rfl⟩ | hedge
    · exact absurd hlater (not_later _ (by simp))
    · split at hedge
      · obtain ⟨_, -, rfl⟩ := List.mem_map.mp hedge
        exact absurd hlater (not_later _ (by simp))
      · cases hedge

theorem later_of_mem_cone
    (hsplit : initiative.resolution.phases = before ++ definition :: after)
    (hearlier : InputsEarlier initiative.resolution before.length)
    {evidence : List (Entry EvidenceRecord)} {approvals : List (Entry ApprovalRecord)}
    {start node : Text} (hstart : Later ((definition :: after).map PhaseDefinition.id) start)
    (h : node ∈ downstreamCone (buildInitiativeGraph initiative evidence approvals) [start]) :
    Later ((definition :: after).map PhaseDefinition.id) node := by
  obtain ⟨start', hmem, hpath⟩ := mem_downstreamCone_iff.mp h
  obtain rfl := List.mem_singleton.mp hmem
  induction hpath with
  | refl => exact hstart
  | tail _ hedge ih =>
      refine later_of_mem_edges hsplit hearlier _ hedge (ih ?_)
      exact mem_downstreamCone_iff.mpr ⟨_, List.mem_singleton_self _, by assumption⟩

end Cone

/-! ## The place of the current phase -/

/-- A phase that is behind the current one. -/
def Settled (phase : Phase) : Prop := phase.status ∈ [.approved, .skipped]

/-- A phase that is ahead of the current one. -/
def Waiting (phase : Phase) : Prop := phase.status ∈ [.notStarted, .approved, .stale, .skipped]

/-- The current phase has one of some statuses, the phases before it are
settled and those after it wait; without a current phase all are settled. -/
structure Placed (allowed : List PhaseStatus) (initiative : Initiative) : Prop where
  complete_iff : initiative.currentPhase = none ↔ initiative.status = .complete
  finished : initiative.currentPhase = none → ∀ phase ∈ initiative.phases, Settled phase
  current : ∀ id, initiative.currentPhase = some id → ∃ before phase after,
    initiative.phases = before ++ phase :: after ∧ phase.id = id ∧ phase.status ∈ allowed
      ∧ (∀ other ∈ before, Settled other) ∧ ∀ other ∈ after, Waiting other

theorem Settled.waiting {phase : Phase} (h : Settled phase) : Waiting phase := by
  simp only [Settled, Waiting, List.mem_cons, List.not_mem_nil, or_false] at *
  tauto

theorem Marked.waiting {affectedPhases : List Text} {phase phase' : Phase}
    (h : Marked affectedPhases phase phase') (hwaiting : Waiting phase) : Waiting phase' := by
  unfold Waiting at *
  rcases h.status with heq | ⟨-, heq, -⟩
  · rwa [heq]
  · rw [heq]
    simp

theorem Marked.status_eq {affectedPhases : List Text} {phase phase' : Phase}
    (h : Marked affectedPhases phase phase') (hnot : phase.id ∉ affectedPhases) :
    phase'.status = phase.status :=
  h.status.resolve_right fun ⟨_, _, hmem⟩ => hnot hmem

theorem Marked.settled {affectedPhases : List Text} {phase phase' : Phase}
    (h : Marked affectedPhases phase phase') (hnot : phase'.id ∉ affectedPhases)
    (hsettled : Settled phase) : Settled phase' := by
  unfold Settled at *
  rwa [h.status_eq (h.id_eq ▸ hnot)]

theorem waiting_reset {affectedPhases : List Text} {phase : Phase} :
    Waiting (reset affectedPhases phase) := by
  unfold reset Waiting
  split
  · simp
  · next h => simp [not_not.mp (not_or.mp h).1]

theorem forall₂_split {α : Type} {R : α → α → Prop} {before after l : List α} {a : α}
    (h : List.Forall₂ R (before ++ a :: after) l) : ∃ before' a' after',
      l = before' ++ a' :: after' ∧ List.Forall₂ R before before' ∧ R a a'
        ∧ List.Forall₂ R after after' := by
  induction before generalizing l with
  | nil =>
      cases h with
      | cons hfirst hrest => exact ⟨[], _, _, rfl, .nil, hfirst, hrest⟩
  | cons first before ih =>
      cases h with
      | cons hfirst hrest =>
          obtain ⟨before', a', after', rfl, hbefore, ha, hafter⟩ := ih hrest
          exact ⟨_ :: before', a', after', rfl, .cons hfirst hbefore, ha, hafter⟩

theorem forall_of_forall₂ {α : Type} {R : α → α → Prop} {P Q : α → Prop} {l l' : List α}
    (h : List.Forall₂ R l l') (hP : ∀ a ∈ l, P a) (hQ : ∀ a a', R a a' → P a → Q a') :
    ∀ a' ∈ l', Q a' := by
  induction h with
  | nil => exact fun _ hmem => absurd hmem List.not_mem_nil
  | cons hfirst _ ih =>
      obtain ⟨ha, hrest⟩ := List.forall_mem_cons.mp hP
      exact List.forall_mem_cons.mpr ⟨hQ _ _ hfirst ha, ih hrest⟩

section Preservation

variable {allowed : List PhaseStatus} {initiative : Initiative}

theorem MarkedState.currentIndex {affectedPhases : List Text} {marked : Initiative}
    (h : MarkedState affectedPhases initiative marked) :
    currentIndex marked = currentIndex initiative := by
  have hlength := h.phases.length_eq
  have hphases := h.phases
  unfold Initiatives.currentIndex
  rw [h.currentPhase]
  split
  · exact hlength.symm
  · clear hlength h
    generalize initiative.phases = phases at hphases
    generalize marked.phases = phases' at hphases
    induction hphases with
    | nil => rfl
    | cons hmarked _ ih =>
        rw [List.findIdx_cons, List.findIdx_cons, hmarked.id_eq, ih]

theorem currentIndex_of_none (h : initiative.currentPhase = none) :
    Initiatives.currentIndex initiative = initiative.phases.length := by
  rw [Initiatives.currentIndex, h]

theorem currentIndex_le (initiative : Initiative) :
    Initiatives.currentIndex initiative ≤ initiative.phases.length := by
  unfold Initiatives.currentIndex
  split
  · exact Nat.le_refl _
  · exact List.findIdx_le_length

theorem mem_take_of_split {α : Type} {l before after : List α} {n : Nat} (hsplit : l = before ++ after)
    (hn : before.length ≤ n) {a : α} (hmem : a ∈ before) : a ∈ l.take n := by
  rw [hsplit, List.take_append]
  exact List.mem_append_left _ (by rwa [List.take_of_length_le hn])

/-- After marking, the phases that were behind the current one and are not
affected are still settled. -/
theorem Placed.settled_marked (h : Placed allowed initiative) {affectedPhases : List Text}
    {marked : Initiative} (hmarked : MarkedState affectedPhases initiative marked) :
    ∀ phase ∈ marked.phases.take (Initiatives.currentIndex marked), phase.id ∉ affectedPhases →
      Settled phase := by
  cases hcurrent : initiative.currentPhase with
  | none =>
      intro phase hmem
      exact forall_of_forall₂ (Q := fun phase : Phase => phase.id ∉ affectedPhases → Settled phase)
        hmarked.phases (h.finished hcurrent) (fun _ _ hm hs hnot => hm.settled hnot hs) phase
        (List.mem_of_mem_take hmem)
  | some id =>
      obtain ⟨before, phase, after, hsplit, rfl, -, hbefore, -⟩ := h.current id hcurrent
      obtain ⟨before', phase', after', hsplit', hbefore', -, -⟩ :=
        forall₂_split (hsplit ▸ hmarked.phases)
      rw [hmarked.currentIndex, currentIndex_eq hsplit hcurrent, hsplit',
        List.take_left' hbefore'.length_eq.symm]
      exact forall_of_forall₂ hbefore' hbefore fun _ _ hm hs hnot => hm.settled hnot hs

/-- **Invalidating keeps the place**, whatever is affected. -/
theorem Placed.invalidated (h : Placed allowed initiative) (hprogress : .inProgress ∈ allowed)
    (affected : List Text) : Placed allowed (Initiatives.invalidated initiative affected) := by
  obtain ⟨marked, hmarked, hrewound⟩ := invalidated_spec initiative affected
  have hsettled := h.settled_marked hmarked
  generalize Initiatives.invalidated initiative affected = result at hrewound ⊢
  cases hrewound with
  | kept hkept =>
      have hnot : ∀ phase ∈ marked.phases.take (Initiatives.currentIndex marked),
          phase.id ∉ affectedPhaseIds initiative affected := fun phase hmem => by
        obtain ⟨i, hi, rfl⟩ := List.mem_take_iff_getElem.mp hmem
        have hsplit : marked.phases
            = marked.phases.take i ++ marked.phases[i] :: marked.phases.drop (i + 1) := by
          rw [← List.drop_eq_getElem_cons, List.take_append_drop]
        refine hkept _ _ _ hsplit ?_
        rw [List.length_take]
        omega
      refine ⟨by rw [hmarked.currentPhase, hmarked.status]; exact h.complete_iff, ?_, ?_⟩
      · intro hnone phase hmem
        have hall := currentIndex_of_none hnone
        rw [hall, List.take_length] at hsettled hnot
        exact hsettled phase hmem (hnot phase hmem)
      · intro id hid
        rw [hmarked.currentPhase] at hid
        obtain ⟨before, phase, after, hsplit, rfl, hallowed, -, hafter⟩ := h.current id hid
        obtain ⟨before', phase', after', hsplit', hbefore', hphase', hafter'⟩ :=
          forall₂_split (hsplit ▸ hmarked.phases)
        have hindex : Initiatives.currentIndex marked = before'.length := by
          rw [hmarked.currentIndex, currentIndex_eq hsplit hid, hbefore'.length_eq]
        refine ⟨before', phase', after', hsplit', hphase'.id_eq, ?_, ?_, ?_⟩
        · have hphaseNot := hkept before' phase' after' hsplit' (Nat.le_of_eq hindex.symm)
          rwa [hphase'.status_eq (hphase'.id_eq ▸ hphaseNot)]
        · intro other hmem
          have htake := mem_take_of_split hsplit' (Nat.le_of_eq hindex.symm) hmem
          exact hsettled other htake (hnot other htake)
        · exact forall_of_forall₂ hafter' hafter fun _ _ hm hw => hm.waiting hw
  | reopened hsplit hle hbefore _ hphases hcurrent hstatus _ =>
      refine ⟨by simp [hcurrent, hstatus], by simp [hcurrent], fun id hid => ?_⟩
      obtain rfl := Option.some.inj (hcurrent.symm.trans hid)
      refine ⟨_, _, _, hphases, rfl, hprogress, fun other hmem => ?_, fun other hmem => ?_⟩
      · exact hsettled other (mem_take_of_split hsplit hle hmem) (hbefore other hmem)
      · obtain ⟨phase', -, rfl⟩ := List.mem_map.mp hmem
        exact waiting_reset

/-- Writing the current phase keeps the place, where its status is allowed. -/
theorem Placed.update (h : Placed allowed initiative) {id : Text}
    (hcurrent : initiative.currentPhase = some id) {f : Phase → Phase}
    (hid : ∀ phase, (f phase).id = phase.id)
    (hf : ∀ phase, phase.status ∈ allowed → (f phase).status ∈ allowed) :
    Placed allowed (initiative.update id f hid) := by
  refine ⟨h.complete_iff, fun hnone => ?_, fun id' hid' => ?_⟩
  · exact absurd (hcurrent.symm.trans hnone) (by simp)
  · obtain ⟨before, phase, after, hsplit, rfl, hallowed, hbefore, hafter⟩ := h.current id' hid'
    obtain rfl := Option.some.inj (hcurrent.symm.trans hid')
    exact ⟨before, f phase, after, update_phases hsplit f hid, hid phase, hf phase hallowed,
      hbefore, hafter⟩

theorem Placed.completed (h : Placed allowed initiative) (hprogress : .inProgress ∈ allowed)
    {before after : List Phase} {phase : Phase} (hsplit : initiative.phases = before ++ phase :: after)
    (hcurrent : initiative.currentPhase = some phase.id) {result : Initiative}
    (hcompleted : Completed initiative before phase after result) : Placed allowed result := by
  obtain ⟨before', phase', after', hsplit', hid, -, hbefore, hafter⟩ := h.current _ hcurrent
  obtain ⟨rfl, rfl, rfl⟩ := split_unique hsplit hsplit' hid
  cases hcompleted with
  | next hnext hbetween _ hphases hcurrent' hstatus _ =>
      have hrunning : result.status ≠ .complete := by
        rw [hstatus]
        exact fun hcomplete => absurd (h.complete_iff.mpr hcomplete) (by simp [hcurrent])
      refine ⟨by simp [hcurrent', hrunning], by simp [hcurrent'], fun id hid => ?_⟩
      obtain rfl := Option.some.inj (hcurrent'.symm.trans hid)
      refine ⟨_, _, _, hphases, rfl, hprogress, fun other hmem => ?_, fun other hmem => ?_⟩
      · rcases List.mem_append.mp hmem with hmem | hmem
        · exact hbefore other hmem
        · rcases List.mem_cons.mp hmem with rfl | hmem
          · simp [Settled, setStatus]
          · simp [Settled, hbetween other hmem]
      · exact hafter other (by rw [hnext]; simp [hmem])
  | done hall hphases hcurrent' hstatus _ =>
      refine ⟨by simp [hcurrent', hstatus], fun _ other hmem => ?_, by simp [hcurrent']⟩
      rw [hphases] at hmem
      rcases List.mem_append.mp hmem with hmem | hmem
      · exact hbefore other hmem
      · rcases List.mem_cons.mp hmem with rfl | hmem
        · simp [Settled, setStatus]
        · simp [Settled, hall other hmem]

theorem exists_definitions {before after : List Phase} {phase : Phase}
    (h : initiative.phases = before ++ phase :: after) : ∃ before' definition after',
    initiative.resolution.phases = before' ++ definition :: after'
      ∧ before'.map PhaseDefinition.id = before.map Phase.id ∧ definition.id = phase.id
      ∧ after'.map PhaseDefinition.id = after.map Phase.id := by
  have hids := initiative.phaseOrder_eq.symm
  rw [h, List.map_append, List.map_cons] at hids
  obtain ⟨before', rest, hsplit, hbefore, hrest⟩ := List.map_eq_append_iff.mp hids
  obtain ⟨definition, after', rfl, hid, hafter⟩ := List.map_eq_cons_iff.mp hrest
  exact ⟨before', definition, after', hsplit, hbefore, hid, hafter⟩

/-- Where the current phase is the first one affected, it is reopened. -/
theorem Rewound.currentPhase {affectedPhases : List Text} {result : Initiative}
    (h : Rewound affectedPhases initiative result) {before after : List Phase} {phase : Phase}
    (hsplit : initiative.phases = before ++ phase :: after)
    (hindex : Initiatives.currentIndex initiative = before.length)
    (hbefore : ∀ other ∈ before, other.id ∉ affectedPhases) (hphase : phase.id ∈ affectedPhases) :
    result.currentPhase = some phase.id := by
  cases h with
  | kept hkept => exact absurd hphase (hkept before phase after hsplit (Nat.le_of_eq hindex.symm))
  | @reopened _ before' after' found hsplit' hle _ hfound _ hcurrent _ _ =>
      rw [hindex] at hle
      rcases Nat.lt_or_eq_of_le hle with hlt | heq
      · -- an earlier phase is not affected
        have hmem : found ∈ initiative.phases.take before.length :=
          @mem_take_of_split _ _ (before' ++ [found]) after' _ (by simp [hsplit'])
            (by simpa using hlt) _ (by simp)
        rw [hsplit, List.take_left' rfl] at hmem
        exact absurd hfound (hbefore found hmem)
      · obtain ⟨-, htail⟩ := List.append_inj (hsplit'.symm.trans hsplit) heq
        rw [hcurrent, (List.cons.inj htail).1]

/-- The cone of a node of a phase has no node of an earlier phase, where those
consume only what comes before them. -/
theorem not_affected_of_mem_before {before after : List Phase} {phase : Phase}
    (hsplit : initiative.phases = before ++ phase :: after)
    (hearlier : InputsEarlier initiative.resolution before.length) {node : Text}
    (hnode : nodePhase? node = some phase.id) (evidence : List (Entry EvidenceRecord))
    (approvals : List (Entry ApprovalRecord)) :
    ∀ other ∈ before, other.id ∉ affectedPhaseIds initiative
      (downstreamCone (buildInitiativeGraph initiative evidence approvals) [node]) := by
  intro other hother hmem
  obtain ⟨before', definition, after', hdefinitions, hbefore', hid, hafter'⟩ :=
    exists_definitions hsplit
  have hlength : before'.length = before.length := by
    simpa using congrArg List.length hbefore'
  obtain ⟨⟨node', hcone, hother'⟩, -⟩ := mem_affectedPhaseIds.mp hmem
  have hlater := later_of_mem_cone hdefinitions (by rwa [hlength])
    (.inr ⟨phase.id, by simp [hid], hnode⟩) hcone
  have hin : other.id ∈ (phase :: after).map Phase.id := by
    rcases hlater with htype | ⟨id, hids, hid'⟩
    · rw [nodePhase?, htype, if_neg (by decide)] at hother'
      cases hother'
    · rwa [List.map_cons, hid, hafter', Option.some.inj (hid'.symm.trans hother')] at hids
  have hnodup := initiative.ids_nodup
  rw [hsplit, List.map_append] at hnodup
  exact List.disjoint_of_nodup_append hnodup (List.mem_map_of_mem hother) hin

/-- **A rejection stays where it is.**  Where the phases before the current one
consume only what comes before them, the invalidation of a rejected subject
reopens the current phase. -/
theorem Rejected.currentPhase {workspace between workspace' : Workspace} {subject : Text}
    {phase : Phase} {target : RejectionTarget}
    (h : Rejected host workspace subject phase target between workspace')
    (hearlier : InputsEarlier workspace.initiative.resolution
      (Initiatives.currentIndex workspace.initiative)) :
    between.initiative.currentPhase = some phase.id := by
  obtain ⟨hmem, -⟩ := mem_of_phase? h.found
  obtain ⟨before, after, hsplit⟩ := List.append_of_mem hmem
  rw [currentIndex_eq hsplit h.current] at hearlier
  obtain ⟨_, definition, _, hdefinitions, -, hid, -⟩ := exists_definitions hsplit
  have hsafe := workspace.initiative.resolution.ids_safe definition (by simp [hdefinitions])
  rw [hid] at hsafe
  have hnode : nodePhase? target.node = some phase.id := by
    rcases nodePhase?_rejectionTarget h.targeted with heq | heq | heq
    · rw [heq, nodePhase?_phaseNode hsafe]
    · rw [heq, nodePhase?_outputNode hsafe]
    · rw [heq, nodePhase?_checkNode hsafe]
  obtain ⟨entry, -, hinvalidated⟩ := h.invalidated
  have hnot := not_affected_of_mem_before hsplit hearlier hnode workspace.evidence
    (append workspace.approvals entry)
  have haffected : phase.id ∈ affectedPhaseIds workspace.initiative
      (downstreamCone (buildInitiativeGraph workspace.initiative workspace.evidence
        (append workspace.approvals entry)) [target.node]) :=
    mem_affectedPhaseIds.mpr ⟨⟨target.node,
      mem_downstreamCone_iff.mpr ⟨_, List.mem_singleton_self _, .refl⟩, hnode⟩,
      by rw [h.found]; rfl⟩
  obtain ⟨marked, hmarked, hrewound⟩ := invalidated_spec workspace.initiative
    (downstreamCone (buildInitiativeGraph workspace.initiative workspace.evidence
      (append workspace.approvals entry)) [target.node])
  obtain ⟨first, found, rest, hmarkedSplit, hfirst, hfound, -⟩ :=
    forall₂_split (hsplit ▸ hmarked.phases)
  rw [hinvalidated.initiative, hrewound.currentPhase hmarkedSplit
    (by rw [hmarked.currentIndex, currentIndex_eq hsplit h.current, hfirst.length_eq])
    (forall_of_forall₂ hfirst hnot fun _ _ hm hn => hm.id_eq ▸ hn) (hfound.id_eq ▸ haffected),
    hfound.id_eq]

theorem Placed.reopen (h : Placed allowed initiative) (hprogress : .inProgress ∈ allowed) {id : Text}
    (hcurrent : initiative.currentPhase = some id) :
    Placed allowed (Initiatives.reopen initiative id) := by
  have hupdated := h.update hcurrent (f := setStatus .inProgress) (fun _ => rfl)
    fun _ _ => hprogress
  refine ⟨by simp [Initiatives.reopen], by simp [Initiatives.reopen], fun id' hid' => ?_⟩
  obtain rfl := Option.some.inj hid'
  exact hupdated.current id hcurrent

/-- **Every operation keeps the place**; a rejection does where no earlier phase
consumes what comes after it. -/
theorem Placed.step {workspace workspace' : Workspace} {action : Action}
    (h : Placed allowed workspace.initiative) (hprogress : .inProgress ∈ allowed)
    (hawaiting : .awaitingApproval ∈ allowed)
    (hearlier : InputsEarlier workspace.initiative.resolution
      (Initiatives.currentIndex workspace.initiative))
    (hstep : Initiatives.step host workspace action = .ok workspace') :
    Placed allowed workspace'.initiative := by
  cases action with
  | publish phaseId publication =>
      obtain ⟨phase, outputs, hpublished⟩ := published_of_eq_ok hstep
      rw [hpublished.initiative]
      exact h.update hpublished.current (submit_id outputs) fun _ _ => hawaiting
  | approve selected subject review =>
      obtain ⟨approved, happroved, rfl⟩ := map_eq_ok_iff.mp hstep
      obtain ⟨phase, bundle, target, hadmitted, hrecorded⟩ := admitted_of_eq_ok happroved
      obtain ⟨entry, hrecorded⟩ := recorded_of_eq_ok hrecorded
      rw [hrecorded.initiative]
      split
      · unfold settle
        split
        · exact h.update hadmitted.current (f := approveOutput target.id) (fun _ => rfl)
            fun _ hallowed => hallowed
        · obtain ⟨before, after, hsplit⟩ := List.append_of_mem (mem_of_phase? hadmitted.found).1
          exact h.completed hprogress hsplit hadmitted.current (completePhase_completed hsplit)
        · exact h
      · exact h
  | reject selected subject rejection =>
      obtain ⟨phase, target, between, hrejected⟩ := rejected_of_eq_ok hstep
      obtain ⟨entry, -, hinvalidated⟩ := hrejected.invalidated
      rw [hrejected.initiative]
      refine Placed.reopen ?_ hprogress (hrejected.currentPhase hearlier)
      rw [hinvalidated.initiative]
      exact h.invalidated hprogress _
  | invalidate starts invalidation =>
      rw [(invalidated_of_eq_ok hstep).initiative]
      exact h.invalidated hprogress _

end Preservation

/-! ## The start -/

/-- Where a lifecycle starts. -/
structure Created (host : Host) (resolution : Resolution) (entry : Nat) (initiative : Initiative) : Prop where
  lt : entry < resolution.phases.length
  resolution_eq : initiative.resolution = resolution
  status : initiative.status = .inProgress
  current : initiative.currentPhase = (resolution.phases[entry]?).map PhaseDefinition.id
  phases : initiative.phases = startPhases host resolution entry

theorem created_of_eq_ok {id : Text} {resolution : Resolution} {startPhase : Option Text}
    {initiative : Initiative} (h : createInitiative host id resolution startPhase = .ok initiative) :
    ∃ entry, entryIndex resolution startPhase = some entry
      ∧ Created host resolution entry initiative := by
  unfold createInitiative at h
  split at h
  · cases h
  · next entry hentry =>
      obtain rfl := Except.ok.inj h
      refine ⟨entry, hentry, ?_, rfl, rfl, rfl, rfl⟩
      cases startPhase with
      | none =>
          obtain rfl := Option.some.inj hentry
          exact List.length_pos_iff.mpr resolution.nonempty
      | some startPhase => exact (List.findIdx?_eq_some_iff_getElem.mp hentry).1

/-- The status a phase starts with. -/
def startStatus (entry index : Nat) : PhaseStatus :=
  if index < entry then .skipped else if index = 0 then .inProgress else .notStarted

theorem status_startPhases {resolution : Resolution} {entry index : Nat}
    (h : index < (startPhases host resolution entry).length) :
    (startPhases host resolution entry)[index].status = startStatus entry index := by
  simp only [startPhases, List.getElem_mapIdx, startStatus, phaseState]
  split <;> rfl

theorem Created.split {resolution : Resolution} {entry : Nat} {initiative : Initiative}
    (h : Created host resolution entry initiative) : ∃ before phase after,
      initiative.phases = before ++ phase :: after ∧ initiative.currentPhase = some phase.id
        ∧ before.length = entry ∧ phase.status = startStatus entry entry
        ∧ (∀ other ∈ before, other.status = .skipped)
        ∧ ∀ other ∈ after, other.status = .notStarted := by
  have hlength : (startPhases host resolution entry).length = resolution.phases.length := by
    simp [startPhases]
  have hlt : entry < (startPhases host resolution entry).length := hlength ▸ h.lt
  have hid : (startPhases host resolution entry)[entry].id = resolution.phases[entry].id := by
    have hids := congrArg (fun l => l[entry]?) (map_id_startPhases host resolution entry)
    simpa [hlt, h.lt] using hids
  refine ⟨(startPhases host resolution entry).take entry, (startPhases host resolution entry)[entry],
    (startPhases host resolution entry).drop (entry + 1), ?_, ?_, ?_, status_startPhases hlt,
    fun other hmem => ?_, fun other hmem => ?_⟩
  · rw [h.phases, ← List.drop_eq_getElem_cons hlt, List.take_append_drop]
  · rw [h.current, List.getElem?_eq_getElem h.lt, Option.map_some, hid]
  · rw [List.length_take]
    omega
  · obtain ⟨i, hi, rfl⟩ := List.mem_take_iff_getElem.mp hmem
    rw [status_startPhases, startStatus, if_pos (by omega)]
  · obtain ⟨i, hi, rfl⟩ := List.mem_drop_iff_getElem.mp hmem
    rw [status_startPhases, startStatus, if_neg (by omega), if_neg (by omega)]

theorem Created.placed {allowed : List PhaseStatus} {resolution : Resolution} {entry : Nat}
    {initiative : Initiative} (h : Created host resolution entry initiative)
    (hallowed : startStatus entry entry ∈ allowed) : Placed allowed initiative := by
  obtain ⟨before, phase, after, hsplit, hcurrent, -, hphase, hbefore, hafter⟩ := h.split
  refine ⟨by simp [hcurrent, h.status], by simp [hcurrent], fun id hid => ?_⟩
  exact ⟨before, phase, after, hsplit, Option.some.inj (hcurrent.symm.trans hid), hphase ▸ hallowed,
    fun other hmem => by simp [Settled, hbefore other hmem],
    fun other hmem => by simp [Waiting, hafter other hmem]⟩

end Initiatives

end SingularityFlow
