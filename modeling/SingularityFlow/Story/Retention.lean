/-
# A retained phase reads as it did when its approvals completed it

A reset invalidates the approvals of a phase, and retention carries them into
new records; rounds of both make copies of copies.  The copies keep what was
decided and when it was first decided (`Approval.content`), and stand in the
order of the originals.  So the last of them is always the one that completed
the phase.

Retention looks for it by its time instead.  It finds it exactly where the
clock of its author was not behind: a phase of which an earlier approval has a
later time is retained with the time and the author of that one.
-/
import SingularityFlow.Story.PhaseUpstream
import SingularityFlow.Story.Dependencies
import SingularityFlow.Lib.Run

namespace SingularityFlow

open Ecma Approval

namespace Retention

variable {host : Host} {workflow workflow' : Workflow} {phase completion : Phase} {id now : Text}

/-! ## Sorting -/

/-- An element that comes last and is no smaller than the others stays last
when a list is sorted. -/
theorem getLast?_insertionSort {α : Type} {r : α → α → Prop} [DecidableRel r] {l : List α} {a : α}
    (h : ∀ b ∈ l, r b a) : ((l ++ [a]).insertionSort r).getLast? = some a := by
  induction l with
  | nil => rfl
  | cons b l ih =>
      obtain ⟨hb, hl⟩ := List.forall_mem_cons.mp h
      have hlast := ih hl
      rw [List.cons_append, List.insertionSort_cons]
      obtain ⟨front, hfront⟩ : ∃ front, (l ++ [a]).insertionSort r = front ++ [a] :=
        ⟨_, (List.dropLast_append_getLast? a hlast).symm⟩
      rw [hfront]
      clear hfront hlast ih
      induction front with
      | nil => simp [hb]
      | cons c front ih =>
          rw [List.cons_append, List.orderedInsert_cons]
          split
          · rw [← List.cons_append, ← List.cons_append, List.getLast?_concat]
          · rw [List.getLast?_cons, ih]
            rfl

/-! ## What the copies keep -/

/-- What was decided, by whom, and when it was first decided. -/
def Approval.content (approval : Approval) : Actor × Text × Nat × Option Text × Text :=
  (approval.record.actor, approval.record.authorityGroup, approval.record.generation,
    approval.record.upstreamSha256, approval.approvalAt)

/-- The approvals that count. -/
def live (phase : Phase) : List Approval := phase.approvals.filter (·.record.active)

theorem content_invalidate (now : Text) (approval : Approval) :
    (invalidate now approval).content = approval.content := by
  unfold invalidate
  split <;> rfl

theorem content_carry (now : Text) (upstream : Upstream) (approval : Approval) :
    (carry now upstream approval).content = approval.content := rfl

theorem active_iff {approval : Approval} : approval.record.active = true ↔
    approval.record.invalidatedAt = none ∧ approval.record.decision = .approved := by
  simp [ApprovalRecord.active]

/-- After a reset at a time that is new, the approvals it invalidated are
those that counted. -/
theorem filter_invalidate (p : Approval → Bool) (hp : ∀ approval now,
      p (invalidate now approval) = p approval) {l : List Approval}
    (hnew : ∀ approval ∈ l, approval.record.invalidatedAt ≠ some now) :
    (l.map (invalidate now)).filter (fun entry => decide (entry.record.decision = .approved
        ∧ entry.record.invalidatedAt = some now ∧ p entry = true))
      = ((l.filter (·.record.active)).filter p).map (invalidate now) := by
  induction l with
  | nil => rfl
  | cons approval l ih =>
      obtain ⟨hhead, htail⟩ := List.forall_mem_cons.mp hnew
      rw [List.map_cons, List.filter_cons, ih htail, List.filter_cons, hp]
      have hdecision : (invalidate now approval).record.decision = approval.record.decision := by
        unfold invalidate
        split <;> rfl
      have hat : (invalidate now approval).record.invalidatedAt = some now ↔
          approval.record.invalidatedAt = none := by
        unfold invalidate
        split
        · next hnone => simp [hnone]
        · next hsome => simp [hsome, hhead]
      by_cases hactive : approval.record.active = true
      · obtain ⟨hnone, happroved⟩ := active_iff.mp hactive
        rw [if_pos hactive, List.filter_cons]
        by_cases hkept : p approval = true
        · rw [if_pos hkept, if_pos (by simp [hdecision, happroved, hat, hnone, hkept]), List.map_cons]
        · rw [if_neg hkept, if_neg (by simp [hkept])]
      · rw [if_neg hactive, if_neg]
        rw [decide_eq_true_eq, hdecision, hat]
        exact fun h => hactive (active_iff.mpr ⟨h.2.1, h.1⟩)

/-! ## The completion of a phase -/

/-- The phase when approvals last completed it in a run: right after the last
approval that left it approved. -/
def completionOf (id : Text) : List (Workflow × Action) → Workflow → Option Phase
  | [], _ => none
  | (before, action) :: past, after =>
      match action with
      | .approve id' _ _ _ _ =>
          if id' = id ∧ (after.phases id).any (·.status = .approved) = true then after.phases id
          else completionOf id past before
      | _ => completionOf id past before

/-- The phase reads as a completion of it. -/
structure ReadsAs (phase completion : Phase) : Prop where
  status : phase.status = completion.status
  generation : phase.generation = completion.generation
  approvedAt : phase.approvedAt = completion.approvedAt
  approvedBy : phase.approvedBy = completion.approvedBy
  artifacts : phase.artifacts = completion.artifacts

/-- The approvals are those that completed the phase, or copies of them. -/
structure Completes (approvals : List Approval) (phase completion : Phase) : Prop where
  status : completion.status = .approved
  generation : phase.generation = completion.generation
  artifacts : phase.artifacts = completion.artifacts
  content : approvals.map (·.content) = (live completion).map (·.content)
  last : ∃ approval, approvals.getLast? = some approval ∧
    completion.approvedAt = some approval.approvalAt ∧
    completion.approvedBy = actorKey approval.record.actor

/-- Only a sequence of contents matters. -/
theorem Completes.of_content {approvals copies : List Approval} {phase' : Phase}
    (h : Completes approvals phase completion)
    (hcopies : copies.map (·.content) = approvals.map (·.content))
    (hgeneration : phase'.generation = phase.generation)
    (hartifacts : phase'.artifacts = phase.artifacts) : Completes copies phase' completion := by
  refine ⟨h.status, hgeneration.trans h.generation, hartifacts.trans h.artifacts,
    hcopies.trans h.content, ?_⟩
  obtain ⟨approval, hlast, hat, hby⟩ := h.last
  have hsame := congrArg List.getLast? hcopies
  rw [List.getLast?_map, List.getLast?_map, hlast, Option.map_some] at hsame
  obtain ⟨copy, hcopy, hcontent⟩ := Option.map_eq_some_iff.mp hsame
  simp only [Approval.content, Prod.mk.injEq] at hcontent
  exact ⟨copy, hcopy, by rw [hat, hcontent.2.2.2.2], by rw [hby, hcontent.1]⟩

/-- What holds of a phase with the completion that the run knows of it. -/
structure Kept (completion : Option Phase) (phase : Phase) : Prop where
  quiet : phase.status = .notStarted ∨ phase.status = .inProgress → live phase = []
  generation : ∀ approval ∈ live phase, approval.record.generation = phase.generation
  approved : phase.status = .approved → live phase ≠ [] →
    ∃ completed, completion = some completed ∧ Completes (live phase) phase completed ∧
      ReadsAs phase completed
  reset : ∀ reset, phase.reworkRevalidation = some reset → reset.retainable = true →
    phase.status = .notStarted → invalidatedBy phase reset ≠ [] →
    ∃ completed, completion = some completed ∧
      Completes (invalidatedBy phase reset) phase completed

def AllKept (past : List (Workflow × Action)) (workflow : Workflow) : Prop :=
  ∀ id phase, workflow.phases id = some phase → Kept (completionOf id past workflow) phase

theorem Kept.of_fresh (h : phase.fresh) (completion : Option Phase) : Kept completion phase := by
  obtain ⟨hstatus, happrovals, hreset, -⟩ := h
  have hlive : live phase = [] := by rw [live, happrovals]; rfl
  refine ⟨fun _ => hlive, fun approval hmem => ?_, fun happroved => ?_, fun reset hsome => ?_⟩
  · rw [hlive] at hmem
    cases hmem
  · rw [hstatus] at happroved
    cases happroved
  · rw [hreset] at hsome
    cases hsome

/-! ## One operation -/

theorem step_ok {action : Action} (h : step host workflow action = .ok workflow') :
    apply host workflow action = some workflow' := by
  unfold step at h
  split at h
  · next happly =>
    obtain rfl := Except.ok.inj h
    exact happly
  · cases h

theorem writeIn_spec {status : PhaseStatus} {f : Phase → Phase}
    (h : writeIn workflow status id f = some workflow') :
    ∃ phase, workflow.phases id = some phase ∧ phase.status = status ∧
      workflow' = { workflow with
        phases := Function.update workflow.phases id (some (f phase)) } := by
  obtain ⟨phase, hphase, rfl⟩ := Option.map_eq_some_iff.mp h
  obtain ⟨hphase, hstatus⟩ := Option.filter_eq_some_iff.mp hphase
  exact ⟨phase, hphase, of_decide_eq_true hstatus, rfl⟩

/-- A turn of the retention loop, inverted. -/
theorem retainPhase_spec {surroundings : Surroundings}
    (h : retainPhase host workflow surroundings now id = some workflow') :
    ∃ phase approvals upstream, workflow.phases id = some phase ∧
      retainableApprovals host phase = some approvals ∧
      phaseUpstream host workflow surroundings phase = some upstream ∧
      (∀ approval ∈ approvals, approval.record.upstreamSha256 = some upstream.sha256) ∧
      workflow' = { workflow with
        phases := Function.update workflow.phases id
          (some (retain host phase approvals now upstream)) } := by
  simp only [retainPhase, Option.bind_eq_bind, Option.bind_eq_some_iff] at h
  obtain ⟨phase, hphase, approvals, happrovals, upstream, hupstream, h⟩ := h
  split at h
  · cases h
  next hsame =>
  obtain rfl := Option.some.inj h
  refine ⟨phase, approvals, upstream, hphase, happrovals, hupstream, fun approval hmem => ?_, rfl⟩
  simp only [not_or, Bool.not_eq_true, List.any_eq_false, decide_eq_true_eq, not_not] at hsame
  exact hsame.1 approval hmem

/-- What is retained are the approvals of the reset, and they meet the policy. -/
theorem retainableApprovals_spec {approvals : List Approval}
    (h : retainableApprovals host phase = some approvals) :
    ∃ reset, phase.reworkRevalidation = some reset ∧ reset.retainable = true ∧
      phase.status = .notStarted ∧ approvals = invalidatedBy phase reset ∧ approvals ≠ [] ∧
      approvalRequirementsMet host.tables phase.approvalPolicy
        (approvals.map fun entry => { entry.record with invalidatedAt := none }) = true := by
  unfold retainableApprovals at h
  split at h
  · cases h
  next reset hreset =>
  split at h
  · cases h
  next hguard =>
  dsimp only at h
  split at h
  · cases h
  next hsome =>
  split at h
  · next hmet =>
    obtain rfl := Option.some.inj h
    simp only [not_or, Bool.not_eq_false, not_not] at hguard hsome
    exact ⟨reset, hreset, hguard.1, hguard.2.1, rfl, hsome.1, hmet⟩
  · cases h

/-- The last of the carried approvals is no earlier than the others. -/
def InOrder (host : Host) (approvals : List Approval) : Prop :=
  ∀ last, approvals.getLast? = some last → ∀ approval ∈ approvals,
    host.localeLe approval.record.atTime last.record.atTime = true

/-- Retention finds the approval that completed the phase by its time, when
the times are in order; and a reset has a time of its own. -/
def Action.Timely (host : Host) (workflow : Workflow) : Action → Prop
  | .retain id _ _ => ∀ phase approvals, workflow.phases id = some phase →
      retainableApprovals host phase = some approvals → InOrder host approvals
  | .reset targetId now retainable => retainable = true →
      ∀ id ∈ workflow.phaseOrder.drop (workflow.phaseOrder.idxOf targetId), ∀ phase,
        workflow.phases id = some phase → phase.status = .approved →
        ∀ approval ∈ phase.approvals, approval.record.invalidatedAt ≠ some now
  | _ => True

theorem completing_of_inOrder {approvals : List Approval} {last : Approval}
    (horder : InOrder host approvals) (hlast : approvals.getLast? = some last) :
    completing host approvals = some last := by
  have hsplit := List.dropLast_append_getLast? last hlast
  rw [completing, ← hsplit]
  refine getLast?_insertionSort fun approval hmem => ?_
  exact horder last hlast approval (hsplit ▸ List.mem_append_left _ hmem)

theorem live_append (approvals added : List Approval) :
    (approvals ++ added).filter (·.record.active)
      = approvals.filter (·.record.active) ++ added.filter (·.record.active) :=
  List.filter_append ..

/-- The approvals that a reset invalidated are approvals, and so are copies. -/
theorem carried_active {reset : Story.Revalidation} (now : Text) (upstream : Upstream) :
    ((invalidatedBy phase reset).map (carry now upstream)).filter (·.record.active)
      = (invalidatedBy phase reset).map (carry now upstream) := by
  refine List.filter_eq_self.mpr fun copy hcopy => ?_
  obtain ⟨approval, hmem, rfl⟩ := List.mem_map.mp hcopy
  have hdecided := of_decide_eq_true (List.mem_filter.mp hmem).2
  exact active_iff.mpr ⟨rfl, hdecided.1⟩

/-- **Retention restores the completion**: the copies complete the phase as
their originals did. -/
theorem retain_kept {approvals : List Approval} {completed : Option Phase} (now : Text)
    (upstream : Upstream) (hkept : Kept completed phase) (happrovals : retainableApprovals host phase = some approvals)
    (horder : InOrder host approvals) :
    ∃ completion, completed = some completion ∧
      Completes (live (retain host phase approvals now upstream))
        (retain host phase approvals now upstream) completion ∧
      ReadsAs (retain host phase approvals now upstream) completion ∧
      live (retain host phase approvals now upstream) = approvals.map (carry now upstream) := by
  obtain ⟨reset, hreset, hretainable, hstatus, rfl, hnonempty, -⟩ :=
    retainableApprovals_spec happrovals
  obtain ⟨completion, hcompleted, hcompletes⟩ :=
    hkept.reset reset hreset hretainable hstatus hnonempty
  have hlive : live (retain host phase (invalidatedBy phase reset) now upstream)
      = (invalidatedBy phase reset).map (carry now upstream) := by
    change (phase.approvals ++ _).filter _ = _
    have hnone : phase.approvals.filter (·.record.active) = [] := hkept.quiet (.inl hstatus)
    rw [live_append, hnone, List.nil_append, carried_active]
  have hcontent : ((invalidatedBy phase reset).map (carry now upstream)).map (·.content)
      = (invalidatedBy phase reset).map (·.content) := by
    rw [List.map_map]
    exact List.map_congr_left fun approval _ => content_carry now upstream approval
  obtain ⟨last, hlast, hat, hby⟩ := hcompletes.last
  have hfound := completing_of_inOrder horder hlast
  refine ⟨completion, hcompleted, hlive ▸ hcompletes.of_content hcontent rfl rfl,
    ⟨hcompletes.status.symm, hcompletes.generation, ?_, ?_, hcompletes.artifacts⟩, hlive⟩
  · rw [hat]
    simp only [retain, hfound, Option.map_some]
  · rw [hby]
    simp only [retain, hfound, Option.bind_some]

/-- The phase of a reset keeps the completion in the approvals that it
invalidated. -/
theorem reset_kept {completed : Option Phase} {status : PhaseStatus} {retainable : Bool}
    (hkept : Kept completed phase) (hstatus : status = .notStarted ∨ status = .inProgress)
    (hnew : retainable = true → phase.status = .approved →
      ∀ approval ∈ phase.approvals, approval.record.invalidatedAt ≠ some now) :
    Kept completed (resetPhaseForRework phase now status retainable) := by
  have hlive : live (resetPhaseForRework phase now status retainable) = [] := by
    refine List.filter_eq_nil_iff.mpr fun approval hmem => ?_
    obtain ⟨approval, -, rfl⟩ := List.mem_map.mp hmem
    unfold invalidate
    split
    · simp [ApprovalRecord.active]
    · next hsome => simp [ApprovalRecord.active, hsome]
  refine ⟨fun _ => hlive, fun approval hmem => ?_, fun happroved => ?_,
    fun reset hreset hretainable _ hnonempty => ?_⟩
  · rw [hlive] at hmem
    cases hmem
  · rcases hstatus with rfl | rfl <;> cases happroved
  · obtain rfl := Option.some.inj hreset
    simp only [Bool.and_eq_true, decide_eq_true_eq] at hretainable
    obtain ⟨hretain, happroved⟩ := hretainable
    have hinvalidated : invalidatedBy (resetPhaseForRework phase now status retainable)
          ⟨phase.generation, now, retainable && phase.status = .approved⟩
        = (live phase).map (invalidate now) := by
      have hall := filter_invalidate (fun entry => entry.record.generation = phase.generation)
        (fun approval now => by unfold invalidate; split <;> rfl)
        (hnew hretain happroved)
      have hgeneration : (live phase).filter
          (fun entry => decide (entry.record.generation = phase.generation)) = live phase :=
        List.filter_eq_self.mpr fun approval hmem =>
          decide_eq_true (hkept.generation approval hmem)
      rw [live] at hgeneration ⊢
      rw [hgeneration] at hall
      simp only [decide_eq_true_eq] at hall
      exact hall
    rw [hinvalidated] at hnonempty ⊢
    obtain ⟨completion, hcompleted, hcompletes, -⟩ := hkept.approved happroved fun hnil =>
      hnonempty (by rw [hnil]; rfl)
    refine ⟨completion, hcompleted, hcompletes.of_content ?_ rfl rfl⟩
    rw [List.map_map]
    exact List.map_congr_left fun approval _ => content_invalidate now approval

/-- A phase is written, and the others are as they were. -/
theorem AllKept.write {past past' : List (Workflow × Action)} {written : Phase}
    (hall : AllKept past workflow)
    (hphases : workflow'.phases = Function.update workflow.phases id (some written))
    (hother : ∀ other ≠ id, completionOf other past' workflow' = completionOf other past workflow)
    (hkept : Kept (completionOf id past' workflow') written) : AllKept past' workflow' := by
  intro other phase hphase
  rw [hphases] at hphase
  by_cases heq : other = id
  · subst heq
    rw [Function.update_self, Option.some.injEq] at hphase
    rw [← hphase]
    exact hkept
  · rw [Function.update_of_ne heq] at hphase
    rw [hother other heq]
    exact hall other phase hphase

/-- A phase in work is written; it holds no approval that counts. -/
theorem Kept.of_quiet {completed : Option Phase} {phase' : Phase} (hkept : Kept completed phase)
    (hquiet : phase.status = .notStarted ∨ phase.status = .inProgress)
    (happrovals : phase'.approvals = phase.approvals) (hstatus : phase'.status ≠ .notStarted) :
    Kept completed phase' := by
  have hlive : live phase' = [] := by
    rw [live, happrovals]
    exact hkept.quiet hquiet
  refine ⟨fun _ => hlive, fun approval hmem => ?_, fun _ hne => absurd hlive hne,
    fun _ _ _ h => absurd h hstatus⟩
  rw [hlive] at hmem
  cases hmem

/-- An approval is recorded, and completes the phase when the policy is met. -/
theorem approve_kept (host : Host) (workflow : Workflow) (surroundings : Surroundings)
    (actor : Actor) (group now : Text) {completed : Option Phase} (hkept : Kept completed phase) (hstatus : phase.status = .awaitingApproval) :
    Kept (if (approvePhase host workflow surroundings phase actor group now).status = .approved then
        some (approvePhase host workflow surroundings phase actor group now) else completed)
      (approvePhase host workflow surroundings phase actor group now) := by
  obtain ⟨decision, hrecord, hat, happrovals, hcases⟩ : ∃ decision : Approval,
      (decision.record.active = true ∧ decision.record.generation = phase.generation ∧
        decision.record.actor = actor) ∧ decision.approvalAt = now ∧
      (approvePhase host workflow surroundings phase actor group now).approvals
        = phase.approvals ++ [decision] ∧
      ((approvePhase host workflow surroundings phase actor group now
          = { phase with approvals := phase.approvals ++ [decision] }) ∨
        approvePhase host workflow surroundings phase actor group now
          = { phase with
              approvals := phase.approvals ++ [decision]
              status := .approved
              approvedAt := some now
              approvedBy := actorKey actor }) := by
    refine ⟨⟨⟨.approved, actor, group, phase.generation, now, none,
      (phaseUpstream host workflow surroundings phase).map (·.sha256)⟩, none⟩, ⟨rfl, rfl, rfl⟩,
      rfl, ?_, ?_⟩
    · unfold approvePhase
      dsimp only
      split <;> rfl
    · unfold approvePhase
      dsimp only
      split
      · exact .inr rfl
      · exact .inl rfl
  have hlive : live (approvePhase host workflow surroundings phase actor group now)
      = live phase ++ [decision] := by
    rw [live, happrovals, live_append]
    simp [live, hrecord.1]
  have hgeneration : ∀ approval ∈ live phase ++ [decision],
      approval.record.generation = phase.generation := by
    intro approval hmem
    rcases List.mem_append.mp hmem with hmem | hmem
    · exact hkept.generation approval hmem
    · obtain rfl := List.mem_singleton.mp hmem
      exact hrecord.2.1
  rcases hcases with hsame | hsame
  · rw [← hlive] at hgeneration
    rw [hsame] at hgeneration ⊢
    refine ⟨fun h => ?_, hgeneration, fun h => ?_, fun _ _ _ h => ?_⟩
    · rcases h with h | h <;> rw [hstatus] at h <;> cases h
    · rw [hstatus] at h
      cases h
    · rw [hstatus] at h
      cases h
  · have happroved : (approvePhase host workflow surroundings phase actor group now).status
        = .approved := by rw [hsame]
    rw [if_pos happroved]
    refine ⟨fun h => ?_, fun approval hmem => ?_, fun _ _ => ⟨_, rfl,
      ⟨happroved, rfl, rfl, rfl, decision, ?_, ?_, ?_⟩, ⟨rfl, rfl, rfl, rfl, rfl⟩⟩,
      fun _ _ _ h => ?_⟩
    · rcases h with h | h <;> rw [happroved] at h <;> cases h
    · rw [hlive] at hmem
      rw [hgeneration approval hmem, hsame]
    · rw [hlive, List.getLast?_concat]
    · rw [hsame, hat]
    · rw [hsame, hrecord.2.2]
    · rw [happroved] at h
      cases h

/-- **What every operation keeps.** -/
theorem step_kept {past : List (Workflow × Action)} {action : Action} (hall : AllKept past workflow)
    (htimely : action.Timely host workflow) (h : step host workflow action = .ok workflow') :
    AllKept ((workflow, action) :: past) workflow' := by
  have happly := step_ok h
  cases action with
  | start id =>
      obtain ⟨phase, hphase, hstatus, rfl⟩ := writeIn_spec happly
      exact hall.write rfl (fun _ _ => rfl)
        ((hall id phase hphase).of_quiet (.inl hstatus) rfl (by exact nofun))
  | generate id generation artifacts =>
      obtain ⟨phase, hphase, hstatus, rfl⟩ := writeIn_spec happly
      refine hall.write rfl (fun _ _ => rfl)
        ((hall id phase hphase).of_quiet (.inr hstatus) rfl ?_)
      rw [hstatus]
      exact nofun
  | submit id =>
      obtain ⟨phase, hphase, hstatus, rfl⟩ := writeIn_spec happly
      exact hall.write rfl (fun _ _ => rfl)
        ((hall id phase hphase).of_quiet (.inr hstatus) rfl (by exact nofun))
  | complete id now person =>
      obtain ⟨phase, hphase, hstatus, rfl⟩ := writeIn_spec happly
      exact hall.write rfl (fun _ _ => rfl)
        ((hall id phase hphase).of_quiet (.inr hstatus) rfl (by exact nofun))
  | approve id surroundings actor group now =>
      obtain ⟨phase, hphase, hstatus, rfl⟩ := writeIn_spec happly
      refine hall.write rfl (fun other hne => ?_) ?_
      · exact if_neg fun h => hne h.1.symm
      · have hkept := approve_kept host workflow surroundings actor group now
          (hall id phase hphase) hstatus
        simpa [completionOf] using hkept
  | reset targetId now keep =>
      simp only [apply] at happly
      split at happly
      · obtain rfl := Option.some.inj happly
        intro id phase hphase
        simp only [resetPhaseRangeForRework] at hphase
        split at hphase
        · exact hall id phase hphase
        · next hmem =>
          obtain ⟨old, hold, rfl⟩ := Option.map_eq_some_iff.mp hphase
          have hkept := hall id old hold
          have hnew := fun hkeep => htimely hkeep id (not_not.mp hmem) old hold
          split
          · exact reset_kept hkept (.inr rfl) nofun
          · exact reset_kept hkept (.inl rfl) hnew
      · cases happly
  | retain id surroundings now =>
      obtain ⟨phase, approvals, upstream, hphase, happrovals, -, -, rfl⟩ := retainPhase_spec happly
      obtain ⟨completion, hcompleted, hcompletes, hreads, hlive⟩ :=
        retain_kept now upstream (hall id phase hphase) happrovals
          (htimely phase approvals hphase happrovals)
      refine hall.write rfl (fun _ _ => rfl) ⟨fun h => ?_, fun approval hmem => ?_,
        fun _ _ => ⟨completion, hcompleted, hcompletes, hreads⟩, fun _ hnone => ?_⟩
      · rcases h with h | h <;> cases h
      · rw [hlive] at hmem
        obtain ⟨original, horiginal, rfl⟩ := List.mem_map.mp hmem
        obtain ⟨reset, -, -, -, rfl, -⟩ := retainableApprovals_spec happrovals
        have hfound := of_decide_eq_true (List.mem_filter.mp horiginal).2
        exact hfound.2.2
      · cases hnone

/-! ## Upstream references and later phases -/

theorem producerDigest_of_readsAs (h : ReadsAs phase completion) :
    producerDigest host (some phase) = producerDigest host (some completion) := by
  simp only [producerDigest, producer, Option.map_some, Option.bind_some, Option.getD_some,
    h.status, h.generation, h.approvedAt, h.approvedBy, h.artifacts]

/-- A phase decides over the same, where its producers have the same digests
and the surroundings are the same. -/
theorem phaseUpstream_congr {surroundings : Surroundings}
    (horder : workflow'.phaseOrder = workflow.phaseOrder)
    (hcode : ∀ id, (workflow'.phases id).map (·.deliversCode)
      = (workflow.phases id).map (·.deliversCode))
    (hproducers : ∀ id ∈ producersOf workflow phase,
      producerDigest host (workflow'.phases id) = producerDigest host (workflow.phases id)) :
    phaseUpstream host workflow' surroundings phase
      = phaseUpstream host workflow surroundings phase := by
  have hany : ∀ id, (workflow'.phases id).any (·.deliversCode)
      = (workflow.phases id).any (·.deliversCode) := by
    intro id
    have hsame := hcode id
    cases h : workflow.phases id <;> cases h' : workflow'.phases id <;>
      simp_all
  have hrefs : producersOf workflow' phase = producersOf workflow phase := by
    rw [producersOf, producersOf, horder]
  simp only [phaseUpstream, horder, hany, hrefs]
  rw [List.map_congr_left fun id hmem => by rw [hproducers id hmem]]

/-- What a later phase decided over in the Story `decided` reads the same now,
apart from the phase `id`. -/
structure UnchangedBut (host : Host) (surroundings : Surroundings) (id : Text)
    (decided workflow : Workflow) (phase : Phase) : Prop where
  order : workflow.phaseOrder = decided.phaseOrder
  code : ∀ id, (workflow.phases id).map (·.deliversCode)
    = (decided.phases id).map (·.deliversCode)
  producers : ∀ other ∈ producersOf decided phase, other ≠ id →
    producerDigest host (workflow.phases other) = producerDigest host (decided.phases other)
  files : surroundings.unchanged phase.id = true

/-- The phase qualifies for retention, by approvals that decided over the Story
`decided`. -/
def DecidedOver (host : Host) (surroundings : Surroundings) (decided : Workflow) (phase : Phase) :
    Prop :=
  ∃ approvals upstream, retainableApprovals host phase = some approvals ∧
    phaseUpstream host decided surroundings phase = some upstream ∧
    ∀ approval ∈ approvals, approval.record.upstreamSha256 = some upstream.sha256

/-- **Unchanged later phases can be retained in turn.** -/
theorem retain_later {surroundings : Surroundings} {decided : Workflow} (now : Text)
    (hphase : workflow.phases phase.id = some phase)
    (hdecided : DecidedOver host surroundings decided phase)
    (hunchanged : UnchangedBut host surroundings id decided workflow phase)
    (hsame : producerDigest host (workflow.phases id) = producerDigest host (decided.phases id)) :
    ∃ workflow', step host workflow (.retain phase.id surroundings now) = .ok workflow' := by
  obtain ⟨approvals, upstream, happrovals, hbefore, hrecorded⟩ := hdecided
  have hupstream : phaseUpstream host workflow surroundings phase = some upstream := by
    rw [← hbefore]
    refine phaseUpstream_congr hunchanged.order hunchanged.code fun other hmem => ?_
    by_cases heq : other = id
    · rw [heq, hsame]
    · exact hunchanged.producers other hmem heq
  have hnone : ¬ (approvals.any (·.record.upstreamSha256 ≠ some upstream.sha256) = true ∨
      surroundings.unchanged phase.id = false) := by
    rw [hunchanged.files]
    simp only [reduceCtorEq, or_false, List.any_eq_true, not_exists, not_and]
    intro approval hmem
    simp [hrecorded approval hmem]
  simp only [step, apply, retainPhase, Option.bind_eq_bind, hphase, happrovals, hupstream,
    Option.bind_some, if_neg hnone]
  exact ⟨_, rfl⟩

/-- Copies count as their originals did. -/
theorem requirementsMet_carry (now : Text) (upstream : Upstream) {policy : ApprovalPolicy}
    {approvals : List Approval} : approvalRequirementsMet host.tables policy
        ((approvals.map (carry now upstream)).map (·.record))
      = approvalRequirementsMet host.tables policy
        (approvals.map fun entry => { entry.record with invalidatedAt := none }) := by
  rw [List.map_map]
  simp only [approvalRequirementsMet, approverIdentities, remainingRequiredAuthorities,
    List.filter_map, List.map_map, List.filter_filter]
  rfl

/-! ## Runs -/

/-- **Retention is transparent**, in runs in which it finds the completing
approvals in the order of their times: what is retained meets the policy and
decided over what the phase depends on now, and the phase reads as it did when
those approvals completed it.  So its digest is the one that later phases bound,
and they can be retained in turn. -/
theorem retain_transparent {start : Workflow} {past : List (Workflow × Action)}
    {surroundings : Surroundings}
    (hfresh : ∀ id phase, start.phases id = some phase → phase.fresh)
    (hrun : Run (step host) start past workflow)
    (htimely : ∀ entry ∈ past, entry.2.Timely host entry.1)
    (h : step host workflow (.retain id surroundings now) = .ok workflow')
    (hinOrder : (Action.retain id surroundings now).Timely host workflow) :
    ∃ (phase retained completion : Phase) (approvals : List Approval) (upstream : Upstream),
      workflow.phases id = some phase ∧ workflow'.phases id = some retained ∧
      retained.approvals = phase.approvals ++ approvals.map (carry now upstream) ∧
      phaseUpstream host workflow surroundings phase = some upstream ∧
      (∀ approval ∈ approvals, approval.record.upstreamSha256 = some upstream.sha256) ∧
      approvalRequirementsMet host.tables phase.approvalPolicy
        ((approvals.map (carry now upstream)).map (·.record)) = true ∧
      completionOf id past workflow = some completion ∧
      approvals.map (·.content) = (live completion).map (·.content) ∧
      ReadsAs retained completion ∧
      producerDigest host (some retained) = producerDigest host (some completion) ∧
      ∀ (decided : Workflow) (before later : Phase), decided.phases id = some before →
        ReadsAs before completion → workflow'.phases later.id = some later →
        DecidedOver host surroundings decided later →
        UnchangedBut host surroundings id decided workflow' later →
        ∀ now, ∃ workflow'', step host workflow' (.retain later.id surroundings now)
          = .ok workflow'' := by
  have hall : AllKept past workflow := Run.invariant AllKept (fun s a => a.Timely host s) hrun
    htimely (fun id phase hphase => .of_fresh (hfresh id phase hphase) _) step_kept
  obtain ⟨phase, approvals, upstream, hphase, happrovals, hupstream, hrecorded, rfl⟩ :=
    retainPhase_spec (step_ok h)
  obtain ⟨reset, -, -, -, -, -, hmet⟩ := retainableApprovals_spec happrovals
  obtain ⟨completion, hcompleted, hcompletes, hreads, hlive⟩ :=
    retain_kept now upstream (hall id phase hphase) happrovals
      (hinOrder phase approvals hphase happrovals)
  have hdigest : producerDigest host (some (retain host phase approvals now upstream))
      = producerDigest host (some completion) := producerDigest_of_readsAs hreads
  refine ⟨phase, retain host phase approvals now upstream, completion, approvals, upstream, hphase,
    Function.update_self .., rfl, hupstream, hrecorded, ?_, hcompleted, ?_, hreads, hdigest,
    fun decided before later hdecided hbefore hlater hover hunchanged now => ?_⟩
  · rw [requirementsMet_carry]
    exact hmet
  · rw [← hcompletes.content, hlive, List.map_map]
    exact (List.map_congr_left fun approval _ => content_carry now upstream approval).symm
  · refine retain_later now hlater hover hunchanged ?_
    rw [hdecided, producerDigest_of_readsAs hbefore, ← hdigest]
    exact congrArg _ (Function.update_self ..)

section Example

/-- Digests that keep the completion times of the producers. -/
def plainHost : Host :=
  ⟨asciiTables, leUnits, fun producer => producer.approvedAt.getD [],
    fun refs => (refs.map (·.sha256)).flatten⟩

def examplePhase (id : Text) (inputs : List Text) (minimum : Nat) : Phase where
  id
  inputs
  skill := false
  feedsDecision := false
  deliversCode := false
  approvalPolicy := ⟨.required, [js "leads"], [], minimum, none⟩
  status := .notStarted
  generation := 0
  artifacts := []
  approvals := []
  approvedAt := none
  approvedBy := none
  reworkRevalidation := none
  retention := none

/-- A review, by two people, that reads the plan and not the build. -/
def reviewedStory : Workflow where
  phaseOrder := [js "plan", js "build", js "review"]
  phases id :=
    if id = js "plan" then some (examplePhase id [] 1)
    else if id = js "build" then some (examplePhase id [] 1)
    else if id = js "review" then some (examplePhase id [js "plan"] 2)
    else none

def stillFiles : Surroundings := ⟨none, [], fun _ => [], [], fun _ => true⟩

def approveAs (id name now : Text) : Action :=
  .approve id stillFiles ⟨some name, none, none⟩ (js "leads") now

def produce (id : Text) (generation : Nat) : List Action :=
  [.generate id generation [], .submit id]

/-- The review is approved twice, the build is reworked and approved again. -/
def reworkedBuild (second : Text) : List Action :=
  [.start (js "plan")] ++ produce (js "plan") 1 ++ [approveAs (js "plan") (js "lee") (js "09:00")]
    ++ [.start (js "build")] ++ produce (js "build") 1
    ++ [approveAs (js "build") (js "lee") (js "09:30"), .start (js "review")]
    ++ produce (js "review") 1
    ++ [approveAs (js "review") (js "ann") (js "10:05"), approveAs (js "review") (js "ben") second,
      .reset (js "build") (js "11:00") true] ++ produce (js "build") 2
    ++ [approveAs (js "build") (js "lee") (js "11:30")]

def retainReview : Action := .retain (js "review") stillFiles (js "11:30")

theorem reviewedStory_fresh : ∀ id phase, reviewedStory.phases id = some phase → phase.fresh := by
  intro id phase hphase
  have hall : ∀ id minimum inputs, (examplePhase id inputs minimum).fresh :=
    fun _ _ _ => ⟨rfl, rfl, rfl, rfl⟩
  simp only [reviewedStory] at hphase
  split at hphase
  · exact Option.some.inj hphase ▸ hall ..
  split at hphase
  · exact Option.some.inj hphase ▸ hall ..
  split at hphase
  · exact Option.some.inj hphase ▸ hall ..
  · cases hphase

/-- `Action.Timely`, computed. -/
def Action.timely (host : Host) (workflow : Workflow) : Action → Bool
  | .retain id _ _ => (workflow.phases id).all fun phase =>
      (retainableApprovals host phase).all fun approvals => approvals.getLast?.all fun last =>
        approvals.all fun approval => host.localeLe approval.record.atTime last.record.atTime
  | .reset targetId now retainable => !retainable ||
      (workflow.phaseOrder.drop (workflow.phaseOrder.idxOf targetId)).all fun id =>
        (workflow.phases id).all fun phase => phase.status ≠ .approved ||
          phase.approvals.all fun approval => approval.record.invalidatedAt ≠ some now
  | _ => true

theorem Action.Timely.of_timely {action : Action} (h : action.timely host workflow = true) :
    action.Timely host workflow := by
  cases action with
  | retain id surroundings now =>
      intro phase approvals hphase happrovals last hlast approval hmem
      simp only [Action.timely, hphase, happrovals, hlast, Option.all_some, List.all_eq_true] at h
      exact h approval hmem
  | reset targetId now retainable =>
      intro hretainable id hid phase hphase happroved approval hmem
      simp only [Action.timely, hretainable, Bool.not_true, Bool.false_or, List.all_eq_true] at h
      have hall := h id hid
      simp only [hphase, Option.all_some, happroved, ne_eq, not_true_eq_false, decide_false,
        Bool.false_or, List.all_eq_true, decide_eq_true_eq] at hall
      exact hall approval hmem
  | start | generate | submit | complete | approve => exact trivial

theorem retain_transparent_review : ∃ past workflow workflow',
    runFrom (step plainHost) ([], reviewedStory) (reworkedBuild (js "10:10")) = .ok (past, workflow) ∧
      step plainHost workflow retainReview = .ok workflow' ∧
      ∃ retained completion, workflow'.phases (js "review") = some retained ∧
        completionOf (js "review") past workflow = some completion ∧ ReadsAs retained completion := by
  obtain ⟨⟨past, workflow⟩, hrun, hcheck⟩ := Story.exists_ok_of_any
    (x := runFrom (step plainHost) ([], reviewedStory) (reworkedBuild (js "10:10")))
    (p := fun run => (run.1.all fun entry => entry.2.timely plainHost entry.1) &&
      retainReview.timely plainHost run.2 && (step plainHost run.2 retainReview).toOption.isSome)
    (by decide +kernel)
  simp only [Bool.and_eq_true, List.all_eq_true] at hcheck
  obtain ⟨⟨hpast, hlast⟩, hsome⟩ := hcheck
  cases hstep : step plainHost workflow retainReview with
  | error e => rw [hstep] at hsome; cases hsome
  | ok workflow' =>
      obtain ⟨_, retained, completion, _, _, -, hretained, -, -, -, -, hcompleted, -, hreads, -⟩ :=
        retain_transparent reviewedStory_fresh (Run.of_runFrom .start hrun)
          (fun entry hmem => .of_timely (hpast entry hmem)) hstep (.of_timely hlast)
      exact ⟨past, workflow, workflow', hrun, hstep, retained, completion, hretained, hcompleted,
        hreads⟩

/-- The clock of the second reviewer is five minutes behind: the retained
review is dated, and signed, by the first. -/
theorem skewedReview_not_transparent : ∃ past workflow workflow' retained completion,
    Run (step plainHost) reviewedStory past workflow ∧
      step plainHost workflow retainReview = .ok workflow' ∧
      workflow'.phases (js "review") = some retained ∧
      completionOf (js "review") past workflow = some completion ∧
      retained.approvedAt ≠ completion.approvedAt ∧ retained.approvedBy ≠ completion.approvedBy := by
  obtain ⟨⟨past, workflow⟩, hrun, hcheck⟩ := Story.exists_ok_of_any
    (x := runFrom (step plainHost) ([], reviewedStory) (reworkedBuild (js "10:00")))
    (p := fun run => (step plainHost run.2 retainReview).toOption.any fun retained =>
      (retained.phases (js "review")).any fun phase =>
        (completionOf (js "review") run.1 run.2).any fun completion =>
          phase.approvedAt ≠ completion.approvedAt && phase.approvedBy ≠ completion.approvedBy)
    (by decide +kernel)
  obtain ⟨workflow', hstep, hcheck⟩ := Story.exists_ok_of_any hcheck
  simp only [Option.any_eq_true, Bool.and_eq_true, decide_eq_true_eq] at hcheck
  obtain ⟨retained, hretained, completion, hcompleted, hat, hby⟩ := hcheck
  exact ⟨past, workflow, workflow', retained, completion, Run.of_runFrom .start hrun, hstep,
    hretained, hcompleted, hat, hby⟩

end Example

end Retention

end SingularityFlow
