/-
# The capacity of an approval policy

What `approvalPolicyCapacity` is for: to say, before a Story starts, whether there
are enough people.  `Covering` states the aim without the search, as people who are
placed in the groups they belong to.

An identity belongs to a group that lists it, and every identity belongs to a group
that takes any.  For such a group the search has one identity of its own, which no
other group has; `ownIdentities` shows that this loses nothing, and so the search is
for a maximum matching in this sense too.  `approvalPolicyCapacity_correct` puts the
search and the count of the identities together.
-/
import SingularityFlow.Approval.Completion
import SingularityFlow.Approval.Search
import Mathlib.Data.Fintype.EquivFin

namespace SingularityFlow

open Ecma Bipartite

namespace Approval

variable {tables : UnicodeTables} {registry : Registry} {configured required : List Text}
  {policy : ApprovalPolicy}

/-! ## Who belongs to a group -/

/-- The policy has the group, and the group lists the identity or takes any. -/
def Belongs (tables : UnicodeTables) (registry : Registry) (configured : List Text)
    (identity id : Text) : Prop :=
  id ∈ configured ∧ ∃ authority, registry.group id = some authority
    ∧ (authority.allowAnyGitIdentity = true
      ∨ ∃ member ∈ authority.members, memberIdentity tables member = some identity)

/-- The identities that can be placed in a group. -/
abbrev belonging (tables : UnicodeTables) (registry : Registry) (configured : List Text)
    (id : Text) : Set Text := {identity | Belongs tables registry configured identity id}

/-- Distinct identities, each of them placed in a group that it belongs to, enough of
them, and one at least in every required group. -/
structure Covering (tables : UnicodeTables) (registry : Registry) (policy : ApprovalPolicy)
    (placements : List (Text × Text)) : Prop where
  distinct : (placements.map Prod.fst).Nodup
  belongs : ∀ p ∈ placements, Belongs tables registry policy.authorities p.1 p.2
  covers : ∀ id ∈ policy.requiredAuthorities, ∃ p ∈ placements, p.2 = id
  minimum : policy.minimum ≤ placements.length

/-- The group takes any Git identity. -/
def takesAny (registry : Registry) (id : Text) : Bool :=
  (registry.group id).any (·.allowAnyGitIdentity)

theorem takesAny_iff {id : Text} : takesAny registry id = true
    ↔ ∃ authority, registry.group id = some authority ∧ authority.allowAnyGitIdentity = true := by
  unfold takesAny
  cases registry.group id with
  | none => simp
  | some authority => simp

/-- The identity that the search has for a group that takes any. -/
def unboundedIdentity (id : Text) : Text := js "unbounded:" ++ id

theorem memberIdentity_ne_unbounded {member : Member} {identity : Text}
    (h : memberIdentity tables member = some identity) (id : Text) :
    identity ≠ unboundedIdentity id := by
  rintro rfl
  unfold memberIdentity at h
  dsimp only at h
  -- the first units of the texts differ
  split at h
  · have hhead : (some 0x67 : Option UInt16) = some 0x75 :=
      congrArg List.head? (Option.some.inj h)
    exact absurd hhead (by decide)
  · split at h
    · have hhead : (some 0x65 : Option UInt16) = some 0x75 :=
        congrArg List.head? (Option.some.inj h)
      exact absurd hhead (by decide)
    · cases h

theorem candidates_of_takesAny {id : Text} (hid : id ∈ configured)
    (hany : takesAny registry id = true) :
    candidates tables registry configured id = [unboundedIdentity id] := by
  obtain ⟨authority, hgroup, hauthority⟩ := takesAny_iff.mp hany
  rw [candidates, if_pos hid, hgroup]
  simp only [hauthority, if_true]
  rfl

theorem mem_candidates_of_not_takesAny {id identity : Text} (hany : takesAny registry id = false) :
    identity ∈ candidates tables registry configured id
      ↔ Belongs tables registry configured identity id := by
  unfold candidates Belongs
  by_cases hid : id ∈ configured
  · rw [if_pos hid]
    cases hgroup : registry.group id with
    | none => simp
    | some authority =>
        have hauthority : authority.allowAnyGitIdentity = false := by
          simpa [takesAny, hgroup] using hany
        simp [hauthority, hid, (List.perm_insertionSort _ _).mem_iff]
  · simp [hid]

theorem belongs_of_takesAny {id : Text} (hid : id ∈ configured) (hany : takesAny registry id = true)
    (identity : Text) : Belongs tables registry configured identity id := by
  obtain ⟨authority, hgroup, hauthority⟩ := takesAny_iff.mp hany
  exact ⟨hid, authority, hgroup, .inl hauthority⟩

theorem belongs_of_mem_candidates {id identity : Text}
    (h : identity ∈ candidates tables registry configured id) :
    Belongs tables registry configured identity id := by
  cases hany : takesAny registry id with
  | false => exact (mem_candidates_of_not_takesAny hany).mp h
  | true =>
      have hid : id ∈ configured := by
        by_contra hnot
        rw [candidates, if_neg hnot] at h
        exact List.not_mem_nil h
      exact belongs_of_takesAny hid hany identity

/-! ## The search finds a maximum matching -/

/-- The matching at the end of the search. -/
def finalMatching (tables : UnicodeTables) (registry : Registry) (configured required : List Text) :
    Matching :=
  matchGroups (candidates tables registry configured) (requiredGroups required).length
    (requiredGroups required)

theorem matched_finalMatching : Matched (candidates tables registry configured)
    (requiredGroups required) (finalMatching tables registry configured required) :=
  matched_matchGroups _ (requiredGroups_nodup required) le_rfl

theorem unmatchedRequiredAuthorities_eq_unmatched :
    unmatchedRequiredAuthorities tables registry configured required
      = unmatched (requiredGroups required)
        (finalMatching tables registry configured required).assign := by
  rw [unmatchedRequiredAuthorities_eq, unmatched]
  refine List.filter_congr fun id _ => ?_
  rw [Matching.assign, finalMatching]
  cases mapGet _ id with
  | none => rfl
  | some identity => rfl

/-- The identities that the search found belong to their groups. -/
theorem matches_belonging : Matches (belonging tables registry configured) (requiredGroups required)
    (finalMatching tables registry configured required).assign where
  edge h := belongs_of_mem_candidates (matched_finalMatching.legal.edge h)
  inside h := matched_finalMatching.legal.inside h
  injective := matched_finalMatching.legal.injective

/-- Every group that takes any identity is given the one of its own. -/
def ownIdentities (registry : Registry) (assign : Text → Option Text) (id : Text) : Option Text :=
  if takesAny registry id then (assign id).map fun _ => unboundedIdentity id else assign id

theorem ownIdentities_eq_none {assign : Text → Option Text} {id : Text} :
    ownIdentities registry assign id = none ↔ assign id = none := by
  unfold ownIdentities
  split
  · exact Option.map_eq_none_iff
  · rfl

theorem ownIdentities_eq_some {assign : Text → Option Text} {id identity : Text}
    (h : ownIdentities registry assign id = some identity) :
    (∃ given, assign id = some given)
      ∧ ((takesAny registry id = true ∧ identity = unboundedIdentity id)
        ∨ (takesAny registry id = false ∧ assign id = some identity)) := by
  unfold ownIdentities at h
  by_cases hany : takesAny registry id = true
  · rw [if_pos hany] at h
    obtain ⟨given, hgiven, rfl⟩ := Option.map_eq_some_iff.mp h
    exact ⟨⟨given, hgiven⟩, .inl ⟨hany, rfl⟩⟩
  · rw [if_neg hany] at h
    exact ⟨⟨identity, h⟩, .inr ⟨by simpa using hany, h⟩⟩

theorem matches_ownIdentities {groups : List Text} {assign : Text → Option Text}
    (hM : Matches (belonging tables registry configured) groups assign) :
    Matches (edges (candidates tables registry configured)) groups
      (ownIdentities registry assign) where
  edge {id identity} h := by
    obtain ⟨⟨given, hgiven⟩, ⟨hany, rfl⟩ | ⟨hany, hassign⟩⟩ := ownIdentities_eq_some h
    · have hid : id ∈ configured := (hM.edge hgiven).1
      change unboundedIdentity id ∈ candidates tables registry configured id
      rw [candidates_of_takesAny hid hany]
      exact List.mem_cons_self
    · exact (mem_candidates_of_not_takesAny hany).mpr (hM.edge hassign)
  inside h := by
    obtain ⟨⟨given, hgiven⟩, -⟩ := ownIdentities_eq_some h
    exact hM.inside hgiven
  injective {id id' identity} h h' := by
    have hlisted : ∀ {g}, takesAny registry g = false → assign g = some identity →
        ∀ any, identity ≠ unboundedIdentity any := by
      intro g hany hassign
      obtain ⟨-, authority, hgroup, hauthority⟩ := hM.edge hassign
      have hnot : ¬ authority.allowAnyGitIdentity = true := fun htrue => by
        rw [takesAny_iff.mpr ⟨authority, hgroup, htrue⟩] at hany
        cases hany
      obtain ⟨member, -, hmember⟩ := hauthority.resolve_left hnot
      exact memberIdentity_ne_unbounded hmember
    obtain ⟨-, ⟨hany, rfl⟩ | ⟨hany, hassign⟩⟩ := ownIdentities_eq_some h
    · obtain ⟨-, ⟨-, heq⟩ | ⟨hany', hassign'⟩⟩ := ownIdentities_eq_some h'
      · exact List.append_cancel_left heq
      · exact absurd rfl (hlisted hany' hassign' id)
    · obtain ⟨-, ⟨-, heq⟩ | ⟨-, hassign'⟩⟩ := ownIdentities_eq_some h'
      · exact absurd heq (hlisted hany hassign id')
      · exact hM.injective hassign hassign'

/-- **Maximality**, among all the ways to place identities in the required groups. -/
theorem unmatchedRequiredAuthorities_le {other : Text → Option Text}
    (hother : Matches (belonging tables registry configured) (requiredGroups required) other) :
    (unmatchedRequiredAuthorities tables registry configured required).length
      ≤ (unmatched (requiredGroups required) other).length := by
  have hmatched : Matched (candidates tables registry configured) (requiredGroups required)
      (finalMatching tables registry configured required) := matched_finalMatching
  obtain ⟨R, hR, hleft⟩ := hmatched.maximal
  have hle := unmatched_le hmatched.legal (requiredGroups_nodup required) hR hleft
    (matches_ownIdentities hother)
  have hsame : unmatched (requiredGroups required) (ownIdentities registry other)
      = unmatched (requiredGroups required) other := by
    refine List.filter_congr fun id _ => ?_
    rw [Bool.eq_iff_iff, Option.isNone_iff_eq_none, Option.isNone_iff_eq_none,
      ownIdentities_eq_none]
  rwa [unmatchedRequiredAuthorities_eq_unmatched, ← hsame]

/-! ## Enough people -/

/-- The identities that `approvalPolicyCapacity` counts. -/
def eligibleIdentities (tables : UnicodeTables) (registry : Registry) (policy : ApprovalPolicy) :
    List Text :=
  distinct ((configuredGroups registry policy).flatMap fun authority =>
    authority.members.filterMap (memberIdentity tables))

theorem mem_configuredGroups {authority : Authority} :
    authority ∈ configuredGroups registry policy
      ↔ ∃ id ∈ policy.authorities, registry.group id = some authority := List.mem_filterMap

theorem mem_eligibleIdentities {identity : Text} :
    identity ∈ eligibleIdentities tables registry policy
      ↔ ∃ id ∈ policy.authorities, ∃ authority, registry.group id = some authority
        ∧ ∃ member ∈ authority.members, memberIdentity tables member = some identity := by
  rw [eligibleIdentities, mem_distinct, List.mem_flatMap]
  constructor
  · rintro ⟨authority, hauthority, hidentity⟩
    obtain ⟨id, hid, hgroup⟩ := mem_configuredGroups.mp hauthority
    exact ⟨id, hid, authority, hgroup, List.mem_filterMap.mp hidentity⟩
  · rintro ⟨id, hid, authority, hgroup, hmember⟩
    exact ⟨authority, mem_configuredGroups.mpr ⟨id, hid, hgroup⟩, List.mem_filterMap.mpr hmember⟩

/-- More people are placed, each in some group of theirs. -/
theorem exists_extension {placed : List (Text × Text)} (hdistinct : (placed.map Prod.fst).Nodup)
    (hbelongs : ∀ p ∈ placed, Belongs tables registry configured p.1 p.2) {pool : List Text}
    (hpool : pool.Nodup)
    (hgroup : ∀ identity ∈ pool, ∃ id, Belongs tables registry configured identity id) :
    ∃ placements, placed ⊆ placements ∧ (placements.map Prod.fst).Nodup
      ∧ (∀ p ∈ placements, Belongs tables registry configured p.1 p.2)
      ∧ pool.length ≤ placements.length := by
  choose! groupOf hgroupOf using hgroup
  let others := pool.filter (· ∉ placed.map Prod.fst)
  let placements := placed ++ others.map fun identity => (identity, groupOf identity)
  have hfirsts : placements.map Prod.fst = placed.map Prod.fst ++ others := by
    simp [placements, Function.comp_def]
  have hnodup : (placements.map Prod.fst).Nodup := by
    rw [hfirsts, List.nodup_append]
    refine ⟨hdistinct, hpool.filter _, fun identity hplaced other hother heq => ?_⟩
    subst heq
    simpa [hplaced] using (List.mem_filter.mp hother).2
  refine ⟨placements, List.subset_append_left _ _, hnodup, ?_, ?_⟩
  · intro p hp
    obtain hp | hp := List.mem_append.mp hp
    · exact hbelongs p hp
    · obtain ⟨identity, hidentity, rfl⟩ := List.mem_map.mp hp
      exact hgroupOf identity (List.mem_filter.mp hidentity).1
  · have hsub : pool ⊆ placements.map Prod.fst := by
      intro identity hidentity
      rw [hfirsts, List.mem_append]
      by_cases hplaced : identity ∈ placed.map Prod.fst
      · exact .inl hplaced
      · exact .inr (List.mem_filter.mpr ⟨hidentity, by simpa using hplaced⟩)
    simpa using (hpool.subperm hsub).length_le

/-- There are as many distinct identities as one likes. -/
theorem exists_identities (n : Nat) : ∃ pool : List Text, pool.Nodup ∧ pool.length = n := by
  obtain ⟨pool, hpool⟩ := Infinite.exists_subset_card_eq Text n
  exact ⟨pool.toList, pool.nodup_toList, by rw [Finset.length_toList, hpool]⟩

/-- The placements of the matching. -/
theorem exists_placed (hmissing : unmatchedRequiredAuthorities tables registry configured required
      = []) :
    ∃ placed : List (Text × Text), (placed.map Prod.fst).Nodup
      ∧ (∀ p ∈ placed, Belongs tables registry configured p.1 p.2)
      ∧ ∀ id ∈ required, ∃ p ∈ placed, p.2 = id := by
  let assign := (finalMatching tables registry configured required).assign
  have hM : Matches (belonging tables registry configured) (requiredGroups required) assign :=
    matches_belonging
  let placed := (requiredGroups required).filterMap fun id => (assign id).map (·, id)
  have hfirsts : placed.map Prod.fst = (requiredGroups required).filterMap assign := by
    rw [List.map_filterMap]
    refine List.filterMap_congr fun id _ => ?_
    cases assign id <;> rfl
  refine ⟨placed, ?_, ?_, ?_⟩
  · rw [hfirsts]
    exact (requiredGroups_nodup required).filterMap fun id id' identity h h' =>
      hM.injective h h'
  · intro p hp
    obtain ⟨id, -, h⟩ := List.mem_filterMap.mp hp
    obtain ⟨identity, hassign, rfl⟩ := Option.map_eq_some_iff.mp h
    exact hM.edge hassign
  · intro id hid
    have hassigned : ¬ assign id = none := by
      intro hnone
      have hmem : id ∈ unmatched (requiredGroups required) assign :=
        List.mem_filter.mpr ⟨mem_requiredGroups.mpr hid, by rw [hnone]; rfl⟩
      rw [← unmatchedRequiredAuthorities_eq_unmatched, hmissing] at hmem
      exact List.not_mem_nil hmem
    obtain ⟨identity, hidentity⟩ := Option.ne_none_iff_exists'.mp hassigned
    exact ⟨(identity, id), List.mem_filterMap.mpr
      ⟨id, mem_requiredGroups.mpr hid, by rw [hidentity]; rfl⟩, rfl⟩

/-- The identities of a covering are a matching of all required groups. -/
theorem Covering.missing_eq_nil {placements : List (Text × Text)}
    (h : Covering tables registry policy placements) :
    unmatchedRequiredAuthorities tables registry policy.authorities policy.requiredAuthorities
      = [] := by
  choose! placement hplacement using h.covers
  let assign : Text → Option Text := fun id =>
    if id ∈ policy.requiredAuthorities then some (placement id).1 else none
  have hassign : ∀ {id identity}, assign id = some identity →
      id ∈ policy.requiredAuthorities ∧ (placement id).1 = identity := by
    intro id identity hsome
    by_cases hid : id ∈ policy.requiredAuthorities
    · exact ⟨hid, by simpa [assign, hid] using hsome⟩
    · simp [assign, hid] at hsome
  have hM : Matches (belonging tables registry policy.authorities)
      (requiredGroups policy.requiredAuthorities) assign := by
    constructor
    · intro id identity hsome
      obtain ⟨hid, rfl⟩ := hassign hsome
      obtain ⟨hmem, hgroup⟩ := hplacement id hid
      have hbelongs := h.belongs _ hmem
      rwa [hgroup] at hbelongs
    · intro id identity hsome
      exact mem_requiredGroups.mpr (hassign hsome).1
    · intro id id' identity hsome hsome'
      obtain ⟨hid, rfl⟩ := hassign hsome
      obtain ⟨hid', heq⟩ := hassign hsome'
      obtain ⟨hmem, hgroup⟩ := hplacement id hid
      obtain ⟨hmem', hgroup'⟩ := hplacement id' hid'
      rw [← hgroup, ← hgroup', List.inj_on_of_nodup_map h.distinct hmem' hmem heq]
  have hall : unmatched (requiredGroups policy.requiredAuthorities) assign = [] := by
    refine List.filter_eq_nil_iff.mpr fun id hid => ?_
    simp [assign, mem_requiredGroups.mp hid]
  have hle := unmatchedRequiredAuthorities_le hM
  rw [hall] at hle
  exact List.length_eq_zero_iff.mp (Nat.le_zero.mp hle)

/-- **The count.**  The required groups have people of their own and there are enough
people exactly when there is a covering. -/
theorem exists_covering_iff : (∃ placements, Covering tables registry policy placements)
    ↔ unmatchedRequiredAuthorities tables registry policy.authorities policy.requiredAuthorities = []
      ∧ ((configuredGroups registry policy).any (·.allowAnyGitIdentity) = true
        ∨ policy.minimum ≤ (eligibleIdentities tables registry policy).length) := by
  constructor
  · rintro ⟨placements, h⟩
    refine ⟨h.missing_eq_nil, ?_⟩
    by_cases hany : (configuredGroups registry policy).any (·.allowAnyGitIdentity) = true
    · exact .inl hany
    -- everyone who was placed is listed by the group
    have hlisted : placements.map Prod.fst ⊆ eligibleIdentities tables registry policy := by
      intro identity hidentity
      obtain ⟨p, hp, rfl⟩ := List.mem_map.mp hidentity
      obtain ⟨hid, authority, hgroup, hauthority⟩ := h.belongs p hp
      have hnot : ¬ authority.allowAnyGitIdentity = true := fun htrue =>
        hany (List.any_eq_true.mpr ⟨authority, mem_configuredGroups.mpr ⟨p.2, hid, hgroup⟩, htrue⟩)
      exact mem_eligibleIdentities.mpr
        ⟨p.2, hid, authority, hgroup, hauthority.resolve_left hnot⟩
    have hle := (h.distinct.subperm hlisted).length_le
    rw [List.length_map] at hle
    exact .inr (h.minimum.trans hle)
  · rintro ⟨hmissing, hcount⟩
    obtain ⟨placed, hdistinct, hbelongs, hcovers⟩ := exists_placed hmissing
    obtain ⟨pool, hpool, hgroup, hlength⟩ : ∃ pool : List Text, pool.Nodup
        ∧ (∀ identity ∈ pool, ∃ id, Belongs tables registry policy.authorities identity id)
        ∧ policy.minimum ≤ pool.length := by
      obtain hany | hlisted := hcount
      · obtain ⟨authority, hauthority, htrue⟩ := List.any_eq_true.mp hany
        obtain ⟨id, hid, hgroup⟩ := mem_configuredGroups.mp hauthority
        obtain ⟨pool, hpool, hlength⟩ := exists_identities policy.minimum
        exact ⟨pool, hpool, fun identity _ => ⟨id, hid, authority, hgroup, .inl htrue⟩, hlength.ge⟩
      · refine ⟨eligibleIdentities tables registry policy, nodup_distinct _, ?_, hlisted⟩
        intro identity hidentity
        obtain ⟨id, hid, authority, hgroup, hmember⟩ := mem_eligibleIdentities.mp hidentity
        exact ⟨id, hid, authority, hgroup, .inr hmember⟩
    obtain ⟨placements, hsub, hnodup, hall, hle⟩ := exists_extension hdistinct hbelongs hpool hgroup
    refine ⟨placements, hnodup, hall, fun id hid => ?_, hlength.trans hle⟩
    obtain ⟨p, hp, hid⟩ := hcovers id hid
    exact ⟨p, hsub hp, hid⟩

/-- **`approvalPolicyCapacity` is a matching test.**  Both loops of every round end,
no identity is ever given to two groups, and no placement of identities leaves fewer
required groups without one.  A policy that asks for reviews is attainable exactly
when a covering exists; the mode `none` asks for none and always is. -/
theorem approvalPolicyCapacity_correct (policy : ApprovalPolicy)
    {authorities : Option (List (Text × AuthorityDraft))}
    (hregistry : normalizeApprovalAuthorities tables authorities = .ok registry) :
    let groups := requiredGroups policy.requiredAuthorities
    let candidatesOf := candidates tables registry policy.authorities
    let missing :=
      unmatchedRequiredAuthorities tables registry policy.authorities policy.requiredAuthorities
    (∀ before initial after, groups = before ++ initial :: after →
        RoundEnds candidatesOf groups.length (matchGroups candidatesOf groups.length before) initial)
      ∧ (∀ before after, groups = before ++ after → ∀ g h i,
        (matchGroups candidatesOf groups.length before).assign g = some i →
        (matchGroups candidatesOf groups.length before).assign h = some i → g = h)
      ∧ (∃ assign, Matches (belonging tables registry policy.authorities) groups assign
        ∧ missing = unmatched groups assign)
      ∧ (∀ other, Matches (belonging tables registry policy.authorities) groups other →
        missing.length ≤ (unmatched groups other).length)
      ∧ ∃ capacity, approvalPolicyCapacity tables authorities policy = .ok capacity
        ∧ (policy.mode ≠ .none → capacity.missingAuthorities = missing
          ∧ (capacity.attainable = true ↔ ∃ placements, Covering tables registry policy placements))
        ∧ (policy.mode = .none → capacity.attainable = true) := by
  intro groups candidatesOf missing
  have hnodup : groups.Nodup := requiredGroups_nodup _
  refine ⟨fun before initial after => rounds_end hnodup le_rfl, ?_,
    ⟨_, matches_belonging, unmatchedRequiredAuthorities_eq_unmatched⟩,
    fun other => unmatchedRequiredAuthorities_le, ?_⟩
  · intro before after hgroups g h i hg hh
    have hbefore : before.Nodup := (List.nodup_append.mp (hgroups ▸ hnodup)).1
    have hlength : before.length ≤ groups.length := by
      rw [hgroups, List.length_append]
      exact Nat.le_add_right _ _
    exact (matched_matchGroups before hbefore hlength).legal.injective hg hh
  · by_cases hmode : policy.mode = .none
    · refine ⟨⟨true, false, 0, 0, []⟩, ?_, fun h => absurd hmode h, fun _ => rfl⟩
      rw [approvalPolicyCapacity, if_pos hmode]
    · have hcapacity : approvalPolicyCapacity tables authorities policy
          = .ok ⟨missing = [] && ((configuredGroups registry policy).any (·.allowAnyGitIdentity)
              || policy.minimum ≤ (eligibleIdentities tables registry policy).length),
            (configuredGroups registry policy).any (·.allowAnyGitIdentity),
            (eligibleIdentities tables registry policy).length, policy.minimum, missing⟩ := by
        rw [approvalPolicyCapacity, if_neg hmode, hregistry]
        rfl
      refine ⟨_, hcapacity, fun _ => ⟨rfl, ?_⟩, fun h => absurd h hmode⟩
      rw [exists_covering_iff]
      simp [missing]

section Example

/-- Alice is needed for one group, so Bob is found for the other. -/
theorem approvalPolicyCapacity_correct_both :
    ∃ capacity, approvalPolicyCapacity asciiTables (some overlappingGroups) bothGroups
        = .ok capacity
      ∧ (capacity.attainable = true
        ↔ ∃ placements, Covering asciiTables overlappingRegistry bothGroups placements) := by
  obtain ⟨-, -, -, -, capacity, hcapacity, hattainable, -⟩ :=
    approvalPolicyCapacity_correct bothGroups normalize_overlappingGroups
  exact ⟨capacity, hcapacity, (hattainable (by decide)).2⟩

/-- The mode `none`, with a required group that has no members. -/
def withoutReview : ApprovalPolicy :=
  ⟨.none, [defaultApprovalAuthority], [defaultApprovalAuthority], 1, none⟩

/-- No one can be placed in the required group, and the policy is attainable: its
mode asks for no review. -/
theorem approvalPolicyCapacity_without_review :
    ∃ registry capacity, normalizeApprovalAuthorities asciiTables none = .ok registry
      ∧ approvalPolicyCapacity asciiTables none withoutReview = .ok capacity
      ∧ ¬ (capacity.attainable = true
        ↔ ∃ placements, Covering asciiTables registry withoutReview placements) := by
  refine ⟨[(defaultApprovalAuthority, ⟨js "Git contributors", false, [], []⟩)],
    ⟨true, false, 0, 0, []⟩, rfl, rfl, fun h => ?_⟩
  have hmissing := (exists_covering_iff.mp (h.mp rfl)).1
  exact absurd hmissing (by decide)

end Example

end Approval

end SingularityFlow
