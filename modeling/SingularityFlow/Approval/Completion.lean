/-
# Which phases can still be approved

A review is recorded for one group, and is never moved to another.  So the
order of the reviews matters: a reviewer of two required groups may be spent
on the one that others could have decided.

`approvable_iff` says exactly when reviews by the given people can still
complete a phase: when the required groups that are left can be given
distinct people who have not approved, and when there are enough people.
Where this holds, reviewing in the order of the required groups succeeds
(`exists_covering`); each reviewer is then recorded for the group that was
meant for them.
-/
import SingularityFlow.Approval.Authority

namespace SingularityFlow

open Ecma

namespace Approval

variable {tables : UnicodeTables} {authorities : Option (List (Text × AuthorityDraft))}
  {registry : Registry} {policy : ApprovalPolicy} {phaseId : Text} {generation : Nat}
  {generatedBy : Option Actor}

/-! ## Who may review -/

/-- An actor under some identity the registry can know. -/
def identified (tables : UnicodeTables) (actor : Actor) : Bool :=
  normalizedEmail tables actor.email ≠ [] || normalizedLogin tables actor.login ≠ []

/-- The group of the registry admits the actor. -/
def admitted (tables : UnicodeTables) (registry : Registry) (actor : Actor) (id : Text) : Bool :=
  (registry.group id).any
    (·.admits (normalizedEmail tables actor.email) (normalizedLogin tables actor.login))

/-- The actor is a member of a group that may approve the phase. -/
def mayDecide (tables : UnicodeTables) (registry : Registry) (policy : ApprovalPolicy)
    (actor : Actor) (id : Text) : Bool :=
  id ∈ policy.authorities && identified tables actor && admitted tables registry actor id

/-- The policy does not prohibit the review as one's own. -/
def mayReview (policy : ApprovalPolicy) (generatedBy : Option Actor) (actor : Actor) : Bool :=
  !((generatedBy.bind actorKey).isSome && generatedBy.bind actorKey = actorKey actor
    && policy.allowSelfApproval = some false)

/-- An active approval under the same key is recorded. -/
def hasApproved (approvals : List ApprovalRecord) (actor : Actor) : Bool :=
  (approvals.filter (·.active)).any fun item => actorKey item.actor = actorKey actor

/-- The people who can still review. -/
def available (tables : UnicodeTables) (registry : Registry) (policy : ApprovalPolicy)
    (generatedBy : Option Actor) (approvals : List ApprovalRecord) (people : List Actor) :
    List Actor :=
  people.filter fun actor =>
    policy.authorities.any (mayDecide tables registry policy actor)
      && mayReview policy generatedBy actor && !hasApproved approvals actor

theorem mem_available {approvals : List ApprovalRecord} {people : List Actor} {actor : Actor} :
    actor ∈ available tables registry policy generatedBy approvals people ↔
      actor ∈ people ∧ (∃ id, mayDecide tables registry policy actor id = true) ∧
        mayReview policy generatedBy actor = true ∧ hasApproved approvals actor = false := by
  have : (∃ id ∈ policy.authorities, mayDecide tables registry policy actor id = true) ↔
      ∃ id, mayDecide tables registry policy actor id = true :=
    ⟨fun ⟨id, _, h⟩ => ⟨id, h⟩, fun ⟨id, h⟩ => ⟨id, by simp_all [mayDecide], h⟩⟩
  rw [available, List.mem_filter, Bool.and_eq_true, Bool.and_eq_true, List.any_eq_true, this,
    Bool.not_eq_true', and_assoc]

/-! ## One review -/

/-- The group for which an actor decides. -/
def decidesFor (tables : UnicodeTables) (registry : Registry) (policy : ApprovalPolicy)
    (approvals : List ApprovalRecord) (actor : Actor) : Option Text :=
  if identified tables actor then
    ((remainingRequiredAuthorities policy approvals).filter (· ∈ policy.authorities)
      ++ policy.authorities).find? (admitted tables registry actor)
  else none

theorem mayDecide_of_decidesFor {approvals : List ApprovalRecord} {actor : Actor} {id : Text}
    (h : decidesFor tables registry policy approvals actor = some id) :
    mayDecide tables registry policy actor id = true := by
  unfold decidesFor at h
  split at h
  · next hi =>
    have hmem := List.mem_of_find?_eq_some h
    have hadmits := List.find?_some h
    rw [List.mem_append, List.mem_filter, decide_eq_true_eq] at hmem
    have hid : id ∈ policy.authorities := hmem.elim (·.2) fun hid => hid
    simp [mayDecide, hid, hi, hadmits]
  · cases h

/-- Someone who may decide for some group decides for some group. -/
theorem exists_decidesFor (approvals : List ApprovalRecord) {actor : Actor} {id : Text}
    (h : mayDecide tables registry policy actor id = true) :
    ∃ id', decidesFor tables registry policy approvals actor = some id' := by
  simp only [mayDecide, Bool.and_eq_true, decide_eq_true_eq] at h
  rw [decidesFor, if_pos h.1.2, ← Option.isSome_iff_exists, List.find?_isSome]
  exact ⟨id, List.mem_append_right _ h.1.1, h.2⟩

/-- The first of the groups that are left takes its members. -/
theorem decidesFor_head {approvals : List ApprovalRecord} {actor : Actor} {id : Text}
    {rest : List Text} (hleft : remainingRequiredAuthorities policy approvals = id :: rest)
    (h : mayDecide tables registry policy actor id = true) :
    decidesFor tables registry policy approvals actor = some id := by
  simp only [mayDecide, Bool.and_eq_true, decide_eq_true_eq] at h
  rw [decidesFor, if_pos h.1.2, hleft, List.filter_cons_of_pos (by simpa using h.1.1),
    List.cons_append, List.find?_cons_of_pos h.2]

/-- What is recorded of a review. -/
def recordOf (generation : Nat) (review : Review) (id : Text) : ApprovalRecord :=
  ⟨.approved, review.actor, id, generation, review.atTime, none, review.upstreamSha256⟩

theorem remaining_filter (approvals : List ApprovalRecord) :
    remainingRequiredAuthorities policy (approvals.filter (·.active)) =
      remainingRequiredAuthorities policy approvals := by
  simp [remainingRequiredAuthorities]

/-- The authority under which an actor reviews. -/
theorem requireApprovalAuthority_group_iff
    (hr : normalizeApprovalAuthorities tables authorities = .ok registry)
    {approvals : List ApprovalRecord} {actor : Actor} {id : Text} :
    (∃ found, requireApprovalAuthority tables authorities policy actor
        (remainingRequiredAuthorities policy approvals) = .ok found ∧ found.authorityGroup = id) ↔
      decidesFor tables registry policy approvals actor = some id := by
  have hmatch : (∃ found, matchIn tables registry policy actor
      (remainingRequiredAuthorities policy approvals) = .ok found ∧ found.authorityGroup = id) ↔
      decidesFor tables registry policy approvals actor = some id := by
    unfold matchIn decidesFor identified
    dsimp only
    split
    · next hnone => simp [hnone.1, hnone.2]
    · next hsome =>
      have hident : (decide (normalizedEmail tables actor.email ≠ [])
          || decide (normalizedLogin tables actor.login ≠ [])) = true := by
        rw [Bool.or_eq_true, decide_eq_true_eq, decide_eq_true_eq]
        exact not_and_or.mp hsome
      have hadmitted : (fun id => (registry.group id).any (·.admits (normalizedEmail tables actor.email)
          (normalizedLogin tables actor.login))) = admitted tables registry actor := rfl
      rw [if_pos hident, find?_distinct, hadmitted]
      generalize List.find? (admitted tables registry actor) _ = first
      cases first <;> simp
  rw [← hmatch]
  unfold requireApprovalAuthority matchApprovalAuthority
  rw [hr]
  simp only [bind, Except.bind]
  split <;> simp_all

/-- **One review**: it is recorded for the group that `decidesFor` names. -/
theorem approvePhase_eq_ok_iff
    (hr : normalizeApprovalAuthorities tables authorities = .ok registry)
    {approvals next : List ApprovalRecord} {review : Review} :
    approvePhase tables authorities policy phaseId generation generatedBy approvals review = .ok next ↔
      ∃ id, decidesFor tables registry policy approvals review.actor = some id ∧
        mayReview policy generatedBy review.actor = true ∧
        hasApproved approvals review.actor = false ∧
        next = approvals ++ [recordOf generation review id] := by
  have hself : (¬ (((generatedBy.bind actorKey).isSome
      && decide (generatedBy.bind actorKey = actorKey review.actor)) = true
      ∧ policy.allowSelfApproval = some false)) ↔
      mayReview policy generatedBy review.actor = true := by
    simp only [mayReview, Bool.not_eq_true', ← Bool.not_eq_true, Bool.and_eq_true,
      decide_eq_true_eq]
  simp only [approvePhase, bind_eq_ok_iff, failIf_eq_ok_iff, exists_const, remaining_filter, hself,
    Except.ok.injEq]
  constructor
  · rintro ⟨found, hfound, hkey, hreview, rfl⟩
    exact ⟨found.authorityGroup, (requireApprovalAuthority_group_iff hr).mp ⟨found, hfound, rfl⟩,
      hreview, by simpa [hasApproved] using hkey, rfl⟩
  · rintro ⟨id, hid, hreview, hkey, rfl⟩
    obtain ⟨found, hfound, rfl⟩ := (requireApprovalAuthority_group_iff hr).mpr hid
    exact ⟨found, hfound, by simpa [hasApproved] using hkey, hreview, rfl⟩

/-! ## Reviews one after another -/

/-- Reviews, recorded one after another. -/
def recordReviews (tables : UnicodeTables) (authorities : Option (List (Text × AuthorityDraft)))
    (policy : ApprovalPolicy) (phaseId : Text) (generation : Nat) (generatedBy : Option Actor) :
    List ApprovalRecord → List Review → Except Failure (List ApprovalRecord)
  | approvals, [] => .ok approvals
  | approvals, review :: rest => do
      let next ← approvePhase tables authorities policy phaseId generation generatedBy approvals review
      recordReviews tables authorities policy phaseId generation generatedBy next rest

/-- What a sequence of reviews adds. -/
structure Added (tables : UnicodeTables) (registry : Registry) (policy : ApprovalPolicy)
    (generatedBy : Option Actor) (approvals added : List ApprovalRecord) (people : List Actor) :
    Prop where
  active : ∀ item ∈ added, item.active = true
  reviewer : ∀ item ∈ added,
    item.actor ∈ available tables registry policy generatedBy approvals people
  group : ∀ item ∈ added, mayDecide tables registry policy item.actor item.authorityGroup = true
  once : (added.map fun item => actorKey item.actor).Nodup

theorem hasApproved_append {approvals : List ApprovalRecord} {review : Review} {id : Text}
    {actor : Actor} :
    hasApproved (approvals ++ [recordOf generation review id]) actor =
      (hasApproved approvals actor || decide (actorKey review.actor = actorKey actor)) := by
  simp [hasApproved, recordOf, ApprovalRecord.active]

theorem recordReviews_added
    (hr : normalizeApprovalAuthorities tables authorities = .ok registry) {people : List Actor} :
    ∀ {reviews : List Review} {approvals final : List ApprovalRecord},
    (∀ review ∈ reviews, review.actor ∈ people) →
    recordReviews tables authorities policy phaseId generation generatedBy approvals reviews
      = .ok final →
    ∃ added, final = approvals ++ added ∧
      Added tables registry policy generatedBy approvals added people
  | [], approvals, final, _, h => by
      obtain rfl : approvals = final := Except.ok.inj h
      exact ⟨[], by simp, by simp, by simp, by simp, by simp⟩
  | review :: rest, approvals, final, hpeople, h => by
      obtain ⟨next, hnext, hrest⟩ := bind_eq_ok_iff.mp h
      obtain ⟨id, hid, hmay, hnew, rfl⟩ := (approvePhase_eq_ok_iff hr).mp hnext
      obtain ⟨hreview, hpeople⟩ := List.forall_mem_cons.mp hpeople
      obtain ⟨added, rfl, hadded⟩ := recordReviews_added hr hpeople hrest
      have hself : review.actor ∈ available tables registry policy generatedBy approvals people :=
        mem_available.mpr ⟨hreview, ⟨id, mayDecide_of_decidesFor hid⟩, hmay, hnew⟩
      have hothers : ∀ item ∈ added, item.actor ∈ available tables registry policy generatedBy
          approvals people ∧ actorKey review.actor ≠ actorKey item.actor := by
        intro item hitem
        obtain ⟨hp, hd, hm, hk⟩ := mem_available.mp (hadded.reviewer item hitem)
        rw [hasApproved_append, Bool.or_eq_false_iff, decide_eq_false_iff_not] at hk
        exact ⟨mem_available.mpr ⟨hp, hd, hm, hk.1⟩, hk.2⟩
      refine ⟨recordOf generation review id :: added, by simp, ?_, ?_, ?_, ?_⟩
      · exact List.forall_mem_cons.mpr ⟨rfl, hadded.active⟩
      · exact List.forall_mem_cons.mpr ⟨hself, fun item hitem => (hothers item hitem).1⟩
      · exact List.forall_mem_cons.mpr ⟨mayDecide_of_decidesFor hid, hadded.group⟩
      · rw [List.map_cons, List.nodup_cons, List.mem_map]
        exact ⟨fun ⟨item, hitem, he⟩ => (hothers item hitem).2 he.symm, hadded.once⟩

/-! ## Covering the groups that are left -/

/-- The groups that are left can be given distinct people who can still review. -/
def Assignable (tables : UnicodeTables) (registry : Registry) (policy : ApprovalPolicy)
    (generatedBy : Option Actor) (approvals : List ApprovalRecord) (people : List Actor) : Prop :=
  ∃ assigned : Text → Actor,
    (∀ id ∈ remainingRequiredAuthorities policy approvals,
      assigned id ∈ available tables registry policy generatedBy approvals people ∧
        mayDecide tables registry policy (assigned id) id = true) ∧
    Set.InjOn assigned {id | id ∈ remainingRequiredAuthorities policy approvals}

theorem mem_remaining {approvals : List ApprovalRecord} {id : Text} :
    id ∈ remainingRequiredAuthorities policy approvals ↔
      id ∈ policy.requiredAuthorities ∧
        ∀ item ∈ approvals, item.active = true → item.authorityGroup ≠ id := by
  simp [remainingRequiredAuthorities]

/-- A recorded review takes its group from the groups that are left. -/
theorem remaining_append (policy : ApprovalPolicy) (generation : Nat)
    (approvals : List ApprovalRecord) (review : Review) (id : Text) :
    remainingRequiredAuthorities policy (approvals ++ [recordOf generation review id]) =
      (remainingRequiredAuthorities policy approvals).filter (· ≠ id) := by
  simp only [remainingRequiredAuthorities, List.filter_filter]
  refine List.filter_congr fun g _ => ?_
  by_cases h : g = id
  · subst h
    simp [recordOf, ApprovalRecord.active]
  · simp [recordOf, ApprovalRecord.active, h]

/-- Someone else can still review after a review. -/
theorem mem_available_append {approvals : List ApprovalRecord} {people : List Actor}
    {review : Review} {id : Text} {actor : Actor}
    (h : actor ∈ available tables registry policy generatedBy approvals people)
    (hne : actorKey review.actor ≠ actorKey actor) :
    actor ∈ available tables registry policy generatedBy
      (approvals ++ [recordOf generation review id]) people := by
  obtain ⟨hp, hd, hm, hk⟩ := mem_available.mp h
  refine mem_available.mpr ⟨hp, hd, hm, ?_⟩
  rw [hasApproved_append, hk, Bool.false_or, decide_eq_false_iff_not]
  exact hne

/-- **Reviewing in the order of the groups** covers the groups that are left. -/
theorem exists_covering
    (hr : normalizeApprovalAuthorities tables authorities = .ok registry) {people : List Actor}
    (hkeys : (people.map actorKey).Nodup) (n : Nat) : ∀ {approvals : List ApprovalRecord},
    (remainingRequiredAuthorities policy approvals).length ≤ n →
    Assignable tables registry policy generatedBy approvals people →
    ∃ reviews final, (∀ review ∈ reviews, review.actor ∈ people) ∧
      recordReviews tables authorities policy phaseId generation generatedBy approvals reviews
        = .ok final ∧
      remainingRequiredAuthorities policy final = [] := by
  induction n with
  | zero =>
      intro approvals hn _
      exact ⟨[], approvals, by simp, rfl, List.length_eq_zero_iff.mp (Nat.le_zero.mp hn)⟩
  | succ n ih =>
      intro approvals hn ⟨assigned, hassigned, hinj⟩
      cases hleft : remainingRequiredAuthorities policy approvals with
      | nil => exact ⟨[], approvals, by simp, rfl, hleft⟩
      | cons id rest =>
          have hid : id ∈ remainingRequiredAuthorities policy approvals := by simp [hleft]
          obtain ⟨havailable, hmay⟩ := hassigned id hid
          obtain ⟨hpeople, -, hreview, hnew⟩ := mem_available.mp havailable
          -- the reviewer who is meant for the first group that is left decides for it
          have hstep : approvePhase tables authorities policy phaseId generation generatedBy
              approvals ⟨assigned id, [], none⟩ =
                .ok (approvals ++ [recordOf generation ⟨assigned id, [], none⟩ id]) :=
            (approvePhase_eq_ok_iff hr).mpr
              ⟨id, decidesFor_head hleft hmay, hreview, hnew, rfl⟩
          have hrest := remaining_append policy generation approvals ⟨assigned id, [], none⟩ id
          have hassign : Assignable tables registry policy generatedBy
              (approvals ++ [recordOf generation ⟨assigned id, [], none⟩ id]) people := by
            refine ⟨assigned, fun g hg => ?_, fun g hg g' hg' he => ?_⟩
            · rw [hrest, List.mem_filter, decide_eq_true_eq] at hg
              obtain ⟨hg', hmay'⟩ := hassigned g hg.1
              refine ⟨mem_available_append hg' fun hkey => hg.2 ?_, hmay'⟩
              exact (hinj hid hg.1 (List.inj_on_of_nodup_map hkeys hpeople
                (mem_available.mp hg').1 hkey)).symm
            · simp only [Set.mem_setOf_eq, hrest, List.mem_filter] at hg hg'
              exact hinj hg.1 hg'.1 he
          obtain ⟨reviews, final, hreviews, hrun, hcovered⟩ := ih (by
            rw [hrest, hleft, List.filter_cons_of_neg (by simp)]
            rw [hleft, List.length_cons] at hn
            exact (List.length_filter_le ..).trans (by omega)) hassign
          exact ⟨⟨assigned id, [], none⟩ :: reviews, final,
            List.forall_mem_cons.mpr ⟨hpeople, hreviews⟩,
            bind_eq_ok_iff.mpr ⟨_, hstep, hrun⟩, hcovered⟩

/-- **Everyone who can review does.** -/
theorem exists_everyone
    (hr : normalizeApprovalAuthorities tables authorities = .ok registry) {people : List Actor} :
    ∀ {some : List Actor} (approvals : List ApprovalRecord), some ⊆ people →
    (some.map actorKey).Nodup →
    ∃ reviews final, (∀ review ∈ reviews, review.actor ∈ people) ∧
      recordReviews tables authorities policy phaseId generation generatedBy approvals reviews
        = .ok final ∧
      ∀ actor ∈ available tables registry policy generatedBy approvals some,
        ∃ item ∈ final, item.active = true ∧ item.actor = actor
  | [], approvals, _, _ => ⟨[], approvals, by simp, rfl, by simp [available]⟩
  | actor :: others, approvals, hsub, hkeys => by
      rw [List.map_cons, List.nodup_cons] at hkeys
      have hothers : others ⊆ people := fun a ha => hsub (List.mem_cons_of_mem _ ha)
      by_cases hactor : actor ∈ available tables registry policy generatedBy approvals (actor :: others)
      · obtain ⟨-, ⟨id, hid⟩, hreview, hnew⟩ := mem_available.mp hactor
        obtain ⟨id, hid⟩ := exists_decidesFor approvals hid
        have hstep : approvePhase tables authorities policy phaseId generation generatedBy
            approvals ⟨actor, [], none⟩ =
              .ok (approvals ++ [recordOf generation ⟨actor, [], none⟩ id]) :=
          (approvePhase_eq_ok_iff hr).mpr ⟨id, hid, hreview, hnew, rfl⟩
        obtain ⟨reviews, final, hreviews, hrun, hall⟩ := exists_everyone hr
          (approvals ++ [recordOf generation ⟨actor, [], none⟩ id]) hothers hkeys.2
        refine ⟨⟨actor, [], none⟩ :: reviews, final,
          List.forall_mem_cons.mpr ⟨hsub (List.mem_cons_self ..), hreviews⟩,
          bind_eq_ok_iff.mpr ⟨_, hstep, hrun⟩, fun a ha => ?_⟩
        obtain ⟨added, rfl, -⟩ := recordReviews_added hr hreviews hrun
        rcases List.mem_cons.mp (mem_available.mp ha).1 with rfl | ha'
        · exact ⟨recordOf generation ⟨a, [], none⟩ id, by simp, rfl, rfl⟩
        · refine hall a (mem_available_append ?_ fun hkey => hkeys.1 ?_)
          · obtain ⟨-, h⟩ := mem_available.mp ha
            exact mem_available.mpr ⟨ha', h⟩
          · dsimp only at hkey
            exact hkey ▸ List.mem_map_of_mem ha'
      · obtain ⟨reviews, final, hreviews, hrun, hall⟩ :=
          exists_everyone hr approvals hothers hkeys.2
        refine ⟨reviews, final, hreviews, hrun, fun a ha => ?_⟩
        rcases List.mem_cons.mp (mem_available.mp ha).1 with rfl | ha'
        · exact absurd ha hactor
        · obtain ⟨-, h⟩ := mem_available.mp ha
          exact hall a (mem_available.mpr ⟨ha', h⟩)

/-! ## Completing a phase -/

/-- The number of distinct people among actors. -/
def peopleCount (tables : UnicodeTables) (actors : List Actor) : Nat :=
  (distinct ((actors.map (approverIdentity tables)).filter (· ≠ []))).length

/-- The people who count for a phase already. -/
def approvers (approvals : List ApprovalRecord) : List Actor :=
  (approvals.filter (·.active)).map (·.actor)

theorem approvalRequirementsMet_iff {approvals : List ApprovalRecord} :
    approvalRequirementsMet tables policy approvals = true ↔
      policy.minimum ≤ peopleCount tables (approvers approvals) ∧
        remainingRequiredAuthorities policy approvals = [] := by
  rw [approvalRequirementsMet, remaining_filter, Bool.and_eq_true, decide_eq_true_eq,
    decide_eq_true_eq, approverIdentities, peopleCount, approvers, List.map_map]
  rfl

theorem peopleCount_mono {actors actors' : List Actor} (h : actors ⊆ actors') :
    peopleCount tables actors ≤ peopleCount tables actors' := by
  refine length_distinct_le fun t ht => ?_
  rw [List.mem_filter] at ht ⊢
  obtain ⟨actor, hactor, he⟩ := List.mem_map.mp ht.1
  exact ⟨List.mem_map.mpr ⟨actor, h hactor, he⟩, ht.2⟩

theorem approvers_append (approvals added : List ApprovalRecord) :
    approvers (approvals ++ added) = approvers approvals ++ approvers added := by
  simp [approvers]

/-- Reviews only take groups away from those that are left. -/
theorem remaining_nil_append {approvals : List ApprovalRecord} (added : List ApprovalRecord)
    (h : remainingRequiredAuthorities policy approvals = []) :
    remainingRequiredAuthorities policy (approvals ++ added) = [] := by
  refine List.eq_nil_iff_forall_not_mem.mpr fun id hid => ?_
  obtain ⟨hreq, hall⟩ := mem_remaining.mp hid
  exact absurd (mem_remaining.mpr ⟨hreq, fun item hitem => hall item (List.mem_append_left _ hitem)⟩)
    (h ▸ List.not_mem_nil)

theorem recordReviews_append {approvals middle : List ApprovalRecord} {first second : List Review}
    (h : recordReviews tables authorities policy phaseId generation generatedBy approvals first
      = .ok middle) :
    recordReviews tables authorities policy phaseId generation generatedBy approvals (first ++ second)
      = recordReviews tables authorities policy phaseId generation generatedBy middle second := by
  induction first generalizing approvals with
  | nil =>
      obtain rfl : approvals = middle := Except.ok.inj h
      rfl
  | cons review rest ih =>
      obtain ⟨next, hnext, hrest⟩ := bind_eq_ok_iff.mp h
      rw [List.cons_append, recordReviews, hnext]
      exact ih hrest

/-- Reviews that cover every required group name distinct people for those that were left. -/
theorem assignable_of_covered {approvals added : List ApprovalRecord} {people : List Actor}
    (hadded : Added tables registry policy generatedBy approvals added people)
    (hcovered : remainingRequiredAuthorities policy (approvals ++ added) = []) :
    Assignable tables registry policy generatedBy approvals people := by
  have hitem : ∀ id, ∃ item : ApprovalRecord,
      id ∈ remainingRequiredAuthorities policy approvals → item ∈ added ∧ item.authorityGroup = id := by
    intro id
    by_cases hid : id ∈ remainingRequiredAuthorities policy approvals
    · have hnot : id ∉ remainingRequiredAuthorities policy (approvals ++ added) := by simp [hcovered]
      simp only [mem_remaining, not_and, not_forall, not_not] at hnot hid
      obtain ⟨item, hmem, hactive, hgroup⟩ := hnot hid.1
      refine ⟨item, fun _ => ⟨?_, hgroup⟩⟩
      exact (List.mem_append.mp hmem).resolve_left fun hold => hid.2 item hold hactive hgroup
    · exact ⟨⟨.approved, ⟨none, none, none⟩, id, 0, [], none, none⟩, fun h => absurd h hid⟩
  choose chosen hchosen using hitem
  refine ⟨fun id => (chosen id).actor, fun id hid => ?_, fun id hid id' hid' he => ?_⟩
  · obtain ⟨hmem, hgroup⟩ := hchosen id hid
    have hmay := hadded.group _ hmem
    rw [hgroup] at hmay
    exact ⟨hadded.reviewer _ hmem, hmay⟩
  · -- one reviewer, one key, one record
    have hsame := List.inj_on_of_nodup_map hadded.once (hchosen id hid).1 (hchosen id' hid').1
      (congrArg actorKey he)
    rw [← (hchosen id hid).2, hsame, (hchosen id' hid').2]

/-- **When a phase can still be approved.**  Reviews by the given people can
complete it exactly when the required groups that are left can be given
distinct people who have not approved, and the people who have, with those
who have not, are enough. -/
theorem approvable_iff (hr : normalizeApprovalAuthorities tables authorities = .ok registry)
    {people : List Actor} (hkeys : (people.map actorKey).Nodup) {approvals : List ApprovalRecord} :
    (∃ reviews final, (∀ review ∈ reviews, review.actor ∈ people) ∧
        recordReviews tables authorities policy phaseId generation generatedBy approvals reviews
          = .ok final ∧
        approvalRequirementsMet tables policy final = true) ↔
      Assignable tables registry policy generatedBy approvals people ∧
        policy.minimum ≤ peopleCount tables (approvers approvals
          ++ available tables registry policy generatedBy approvals people) := by
  constructor
  · rintro ⟨reviews, final, hreviews, hrun, hmet⟩
    obtain ⟨added, rfl, hadded⟩ := recordReviews_added hr hreviews hrun
    obtain ⟨hminimum, hcovered⟩ := approvalRequirementsMet_iff.mp hmet
    refine ⟨assignable_of_covered hadded hcovered, hminimum.trans (peopleCount_mono ?_)⟩
    rw [approvers_append]
    refine List.append_subset.mpr ⟨List.subset_append_left .., fun actor hactor => ?_⟩
    obtain ⟨item, hitem, rfl⟩ := List.mem_map.mp hactor
    exact List.mem_append_right _ (hadded.reviewer item (List.mem_filter.mp hitem).1)
  · rintro ⟨hassign, hminimum⟩
    obtain ⟨first, middle, hfirst, hrun, hcovered⟩ := exists_covering hr hkeys _ (le_refl _) hassign
    obtain ⟨second, final, hsecond, hrun', hall⟩ := exists_everyone hr middle (List.Subset.refl people)
      hkeys
    obtain ⟨added, rfl, hadded⟩ := recordReviews_added hr hfirst hrun
    obtain ⟨added', rfl, -⟩ := recordReviews_added hr hsecond hrun'
    refine ⟨first ++ second, approvals ++ added ++ added', fun review hmem =>
      (List.mem_append.mp hmem).elim (hfirst review) (hsecond review),
      (recordReviews_append hrun).trans hrun', approvalRequirementsMet_iff.mpr
        ⟨hminimum.trans (peopleCount_mono ?_), remaining_nil_append _ hcovered⟩⟩
    refine List.append_subset.mpr ⟨fun a ha => ?_, fun actor hactor => ?_⟩
    · rw [List.append_assoc, approvers_append]
      exact List.mem_append_left _ ha
    · obtain ⟨hperson, hmay, hreview, hnew⟩ := mem_available.mp hactor
      have hmem : ∃ item ∈ approvals ++ added ++ added', item.active = true ∧ item.actor = actor := by
        cases hkey : hasApproved (approvals ++ added) actor with
        | false => exact hall actor (mem_available.mpr ⟨hperson, hmay, hreview, hkey⟩)
        | true =>
            -- approved meanwhile, under a key that only this person has
            obtain ⟨item, hitem, hsame⟩ := by simpa only [hasApproved, List.any_eq_true,
              decide_eq_true_eq, List.mem_filter] using hkey
            have hold : item ∉ approvals := fun hold => by
              have happroved : hasApproved approvals actor = true :=
                List.any_eq_true.mpr ⟨item, List.mem_filter.mpr ⟨hold, hitem.2⟩,
                  decide_eq_true hsame⟩
              exact absurd (hnew.symm.trans happroved) (by decide)
            have hnew' := (List.mem_append.mp hitem.1).resolve_left hold
            exact ⟨item, by simp [hnew'], hitem.2, List.inj_on_of_nodup_map hkeys
              (mem_available.mp (hadded.reviewer item hnew')).1 hperson hsame⟩
      obtain ⟨item, hitem, hactive, rfl⟩ := hmem
      exact List.mem_map_of_mem (List.mem_filter.mpr ⟨hitem, hactive⟩)

/-- The actor that a member of a registry acts as. -/
def Member.actor (member : Member) : Actor := ⟨member.githubLogin, member.email, member.name⟩

/-- The named members of the groups of a policy. -/
def namedMembers (registry : Registry) (policy : ApprovalPolicy) : List Actor :=
  distinct ((configuredGroups registry policy).flatMap fun authority =>
    authority.members.map Member.actor)

section Example

/-- Alice belongs to both groups, Bob to the first only. -/
def overlappingGroups : List (Text × AuthorityDraft) :=
  let alice : MemberDraft := ⟨none, some (js "alice@example"), none⟩
  let bob : MemberDraft := ⟨none, some (js "bob@example"), none⟩
  [(js "design", ⟨none, none, [], [alice, bob]⟩), (js "security", ⟨none, none, [], [alice]⟩)]

def bothGroups : ApprovalPolicy :=
  ⟨.required, [js "design", js "security"], [js "design", js "security"], 2, none⟩

def alice : Actor := ⟨none, some (js "alice@example"), none⟩

def bob : Actor := ⟨none, some (js "bob@example"), none⟩

/-- The registry that `overlappingGroups` configures. -/
def overlappingRegistry : Registry :=
  [(js "design", ⟨js "design", false, [],
      [⟨none, some (js "alice@example"), none⟩, ⟨none, some (js "bob@example"), none⟩]⟩),
    (js "security", ⟨js "security", false, [], [⟨none, some (js "alice@example"), none⟩]⟩)]

theorem normalize_overlappingGroups :
    normalizeApprovalAuthorities asciiTables (some overlappingGroups) = .ok overlappingRegistry := by
  rfl

theorem approvable_iff_start : ∃ reviews final,
    (∀ review ∈ reviews, review.actor ∈ [alice, bob]) ∧
      recordReviews asciiTables (some overlappingGroups) bothGroups (js "design") 1 none [] reviews
        = .ok final ∧
      approvalRequirementsMet asciiTables bothGroups final = true := by
  refine (approvable_iff normalize_overlappingGroups (by decide)).mpr ⟨⟨fun id =>
    if id = js "security" then alice else bob, ?_, ?_⟩, by decide⟩
  · decide
  · have hgroups : ∀ id ∈ remainingRequiredAuthorities bothGroups [],
        id = js "design" ∨ id = js "security" := by decide
    intro id hid id' hid' he
    rcases hgroups id hid with rfl | rfl <;> rcases hgroups id' hid' with rfl | rfl
    · rfl
    · exact absurd he (by decide)
    · exact absurd he (by decide)
    · rfl

/-- Bob can still review, and the phase cannot be completed: Alice was
recorded for the group that Bob could have decided. -/
theorem approvable_alice_first :
    (approvalPolicyCapacity asciiTables (some overlappingGroups) bothGroups).toOption.map
        (·.attainable) = some true ∧
      namedMembers overlappingRegistry bothGroups = [alice, bob] ∧
      ∃ approvals, recordReviews asciiTables (some overlappingGroups) bothGroups (js "design") 1 none
          [] [⟨alice, [], none⟩] = .ok approvals ∧
        ¬ ∃ reviews final, (∀ review ∈ reviews, review.actor ∈ [alice, bob]) ∧
          recordReviews asciiTables (some overlappingGroups) bothGroups (js "design") 1 none approvals
            reviews = .ok final ∧
          approvalRequirementsMet asciiTables bothGroups final = true := by
  refine ⟨by decide, by decide, [recordOf 1 ⟨alice, [], none⟩ (js "design")], rfl, ?_⟩
  rintro ⟨reviews, final, hreviews, hrun, hmet⟩
  obtain ⟨added, rfl, hadded⟩ := recordReviews_added normalize_overlappingGroups hreviews hrun
  obtain ⟨assigned, hassigned, -⟩ :=
    assignable_of_covered hadded (approvalRequirementsMet_iff.mp hmet).2
  obtain ⟨hmem, hmay⟩ := hassigned (js "security") (by decide)
  have hnobody : ∀ actor ∈ available asciiTables overlappingRegistry bothGroups none
      [recordOf 1 ⟨alice, [], none⟩ (js "design")] [alice, bob],
      mayDecide asciiTables overlappingRegistry bothGroups actor (js "security") = false := by decide
  exact absurd (hmay.symm.trans (hnobody _ hmem)) (by decide)

end Example

end Approval

end SingularityFlow
