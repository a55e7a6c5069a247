/-
# Approval authorities: who may approve, and when a phase is approved

A registry names groups of members.  A policy names the groups that may
approve a phase, those among them that must, and how many distinct people.
Two questions are asked of them.  `approvalPolicyCapacity` asks, before a
Story starts, whether the policy can be met at all: it matches the required
groups to distinct members.  `matchApprovalAuthority` asks for which group an
actor decides now, and prefers a required group that has not decided.

The settings of `approvalSecurity` reach the functions here only with their
defaults, the profile `team`.
-/
import SingularityFlow.Errors
import SingularityFlow.Lib.Collections
import SingularityFlow.Lib.NumberText

namespace SingularityFlow

open Ecma

namespace Approval

/-! ## The registry -/

/-- A member as configured. -/
structure MemberDraft where
  name : Option Text
  email : Option Text
  githubLogin : Option Text

/-- An authority group as configured. -/
structure AuthorityDraft where
  label : Option Text
  allowAnyGitIdentity : Option Bool
  githubTeams : List Text
  members : List MemberDraft

structure Member where
  name : Option Text
  email : Option Text
  githubLogin : Option Text
deriving DecidableEq

structure Authority where
  label : Text
  allowAnyGitIdentity : Bool
  githubTeams : List Text
  members : List Member
deriving DecidableEq

/-- The groups by id, in the order of insertion. -/
abbrev Registry := List (Text × Authority)

/-- `registry[id]`, for an own key. -/
def Registry.group (registry : Registry) (id : Text) : Option Authority := mapGet registry id

variable (tables : UnicodeTables)

/-- `normalizedEmail`. -/
def normalizedEmail (value : Option Text) : Text := tables.toLowerCase (trim (value.getD []))

/-- `normalizedLogin`. -/
def normalizedLogin (value : Option Text) : Text := tables.toLowerCase (trim (value.getD []))

/-- `text || null`. -/
def orNull (text : Text) : Option Text := if text = [] then none else some text

/-- A unit of a team name. -/
def isTeamUnit (u : UInt16) : Bool :=
  isLowerAlnum (lowerAscii u) || u ∈ js "_.-"

/-- `/^@[A-Za-z0-9_.-]+\/[A-Za-z0-9_.-]+$/`. -/
def isGithubTeam : Text → Bool
  | 0x40 :: rest =>
      let organization := rest.takeWhile isTeamUnit
      let team := (rest.dropWhile isTeamUnit).drop 1
      organization ≠ [] && (rest.dropWhile isTeamUnit).head? = some 0x2F && team ≠ []
        && team.all isTeamUnit
  | _ => false

/-- One member of the group `id`; `seen` are the identities before it. -/
def normalizeMember (id : Text) (index : Nat) (seen : List Text) (member : MemberDraft) :
    Except Failure (Text × Member) := do
  let email := normalizedEmail tables member.email
  let githubLogin := normalizedLogin tables member.githubLogin
  failIf ((email = [] ∨ 0x40 ∉ email) ∧ githubLogin = [])
    (refuse (js "Approval authority '" ++ id ++ js "' member " ++ natText (index + 1)
      ++ js " requires a valid Git email or GitHub login."))
  let key := if email ≠ [] then js "email:" ++ email else js "github:" ++ githubLogin
  failIf (key ∈ seen)
    (refuse (js "Approval authority '" ++ id ++ js "' lists identity '"
      ++ (if email ≠ [] then email else githubLogin) ++ js "' more than once."))
  .ok (key, ⟨orNull (trim (member.name.getD [])), orNull email, orNull githubLogin⟩)

/-- The loop over the members of a group. -/
def normalizeMembers (id : Text) : Nat → List Text → List MemberDraft →
    Except Failure (List Member)
  | _, _, [] => .ok []
  | index, seen, member :: rest => do
      let normalized ← normalizeMember tables id index seen member
      let others ← normalizeMembers id (index + 1) (normalized.1 :: seen) rest
      .ok (normalized.2 :: others)

/-- One group of the registry. -/
def normalizeAuthority (entry : Text × AuthorityDraft) : Except Failure (Text × Authority) := do
  let (id, authority) := entry
  failIf (kebabCase id = false)
    (refuse (js "Approval authority '" ++ id ++ js "' must be lower-case kebab-case."))
  failIf (authority.githubTeams.any (!isGithubTeam ·) = true)
    (refuse (js "Approval authority '" ++ id
      ++ js "'.githubTeams must contain @organization/team values."))
  let members ← normalizeMembers tables id 0 [] authority.members
  .ok (id, ⟨(orNull (trim (authority.label.getD []))).getD id,
    authority.allowAnyGitIdentity.getD false, distinct authority.githubTeams, members⟩)

/-- `DEFAULT_APPROVAL_AUTHORITY`. -/
def defaultApprovalAuthority : Text := js "git-contributors"

/-- The registry that is used when none is configured. -/
def defaultAuthorities : List (Text × AuthorityDraft) :=
  [(defaultApprovalAuthority, ⟨some (js "Git contributors"), some false, [], []⟩)]

def normalizeApprovalAuthorities (value : Option (List (Text × AuthorityDraft))) :
    Except Failure Registry := do
  let source := value.getD defaultAuthorities
  failIf (source = [])
    (refuse (js "approvalAuthorities must define at least one authority group."))
  sequence (source.map (normalizeAuthority tables))

/-! ## Policies, actors and approvals -/

/-- The modes of an approval policy. -/
inductive ApprovalMode where
  | required | policy | none
deriving DecidableEq

structure ApprovalPolicy where
  mode : ApprovalMode
  authorities : List Text
  requiredAuthorities : List Text
  minimum : Nat
  allowSelfApproval : Option Bool

/-- A Git identity, or a GitHub login, under which someone acts. -/
structure Actor where
  login : Option Text
  email : Option Text
  name : Option Text
deriving DecidableEq

/-- `actorKey`. -/
def actorKey (actor : Actor) : Option Text := actor.login.or (actor.email.or actor.name)

inductive DecisionKind where
  | approved | rejected | reopened
deriving DecidableEq

/-- A recorded decision on a phase. -/
structure ApprovalRecord where
  decision : DecisionKind
  actor : Actor
  authorityGroup : Text
  generation : Nat
  atTime : Text
  invalidatedAt : Option Text
  upstreamSha256 : Option Text
deriving DecidableEq

/-- The decisions that count: approvals that are not invalidated. -/
def ApprovalRecord.active (item : ApprovalRecord) : Bool :=
  item.invalidatedAt = none && item.decision = .approved

def remainingRequiredAuthorities (policy : ApprovalPolicy) (approvals : List ApprovalRecord) :
    List Text :=
  let decided := (approvals.filter (·.active)).map (·.authorityGroup)
  policy.requiredAuthorities.filter (· ∉ decided)

/-- The identity under which an actor is counted; empty when there is none. -/
def approverIdentity (actor : Actor) : Text :=
  if normalizedLogin tables actor.login ≠ [] then normalizedLogin tables actor.login
  else if normalizedEmail tables actor.email ≠ [] then normalizedEmail tables actor.email
  else tables.toLowerCase (trim (actor.name.getD []))

/-- The distinct people among active approvals. -/
def approverIdentities (active : List ApprovalRecord) : List Text :=
  distinct ((active.map fun item => approverIdentity tables item.actor).filter (· ≠ []))

def approvalRequirementsMet (policy : ApprovalPolicy) (approvals : List ApprovalRecord) : Bool :=
  let active := approvals.filter (·.active)
  policy.minimum ≤ (approverIdentities tables active).length
    && remainingRequiredAuthorities policy active = []

/-! ## Capacity -/

def memberIdentity (member : Member) : Option Text :=
  let login := normalizedLogin tables member.githubLogin
  if login ≠ [] then some (js "github:" ++ login)
  else
    let email := normalizedEmail tables member.email
    if email ≠ [] then some (js "email:" ++ email) else none

/-- The identities that a required group can be matched to. -/
def candidates (registry : Registry) (configured : List Text) (id : Text) : List Text :=
  match (if id ∈ configured then registry.group id else none) with
  | none => []
  | some authority =>
      if authority.allowAnyGitIdentity then [js "unbounded:" ++ id]
      else (distinct (authority.members.filterMap (memberIdentity tables))).insertionSort LeUnits

/-- The maps of the matching: the group of an identity, and the identity of a group. -/
structure Matching where
  byIdentity : List (Text × Text)
  byGroup : List (Text × Text)

/-- The variables of one search for a free identity. -/
structure Search where
  queue : List Text
  visited : List Text
  predecessor : List (Text × Text)
  free : Option Text

/-- The loop over the candidates of a group in the queue. -/
def scanCandidates (byIdentity : List (Text × Text)) (group : Text) : Search → List Text → Search
  | search, [] => search
  | search, identity :: rest =>
      if (mapGet search.predecessor identity).isSome then scanCandidates byIdentity group search rest
      else
        let predecessor := mapSet search.predecessor identity group
        match mapGet byIdentity identity with
        | none => { search with predecessor, free := some identity }
        | some assigned =>
            if assigned ∈ search.visited then
              scanCandidates byIdentity group { search with predecessor } rest
            else
              scanCandidates byIdentity group
                { search with
                  predecessor
                  visited := assigned :: search.visited
                  queue := search.queue ++ [assigned] } rest

/-- The loop over the queue; a group enters it once, so their number is fuel enough. -/
def searchFree (candidatesOf : Text → List Text) (byIdentity : List (Text × Text)) :
    Nat → Search → Search
  | 0, search => search
  | fuel + 1, search =>
      match search.free, search.queue with
      | none, group :: queue =>
          searchFree candidatesOf byIdentity fuel
            (scanCandidates byIdentity group { search with queue } (candidatesOf group))
      | _, _ => search

/-- Reassign along the path that was found, back to the group it started from. -/
def augment (predecessor : List (Text × Text)) : Nat → Option Text → Matching → Matching
  | fuel + 1, some free, matching =>
      match mapGet predecessor free with
      | none => matching
      | some group =>
          augment predecessor fuel (mapGet matching.byGroup group)
            ⟨mapSet matching.byIdentity free group, mapSet matching.byGroup group free⟩
  | _, _, matching => matching

/-- The required groups that cannot be given a member of their own. -/
def unmatchedRequiredAuthorities (registry : Registry) (configured required : List Text) :
    List Text :=
  let groups := (distinct required).insertionSort LeUnits
  let candidatesOf := candidates tables registry configured
  let matching := groups.foldl (fun matching initial =>
    let found := searchFree candidatesOf matching.byIdentity groups.length
      ⟨[initial], [initial], [], none⟩
    augment found.predecessor groups.length found.free matching) ⟨[], []⟩
  groups.filter fun id => mapGet matching.byGroup id = none

structure Capacity where
  attainable : Bool
  unbounded : Bool
  eligibleIdentities : Nat
  minimum : Nat
  missingAuthorities : List Text
deriving DecidableEq

/-- The groups of a policy that the registry has. -/
def configuredGroups (registry : Registry) (policy : ApprovalPolicy) : List Authority :=
  policy.authorities.filterMap registry.group

def approvalPolicyCapacity (authorities : Option (List (Text × AuthorityDraft)))
    (policy : ApprovalPolicy) : Except Failure Capacity :=
  if policy.mode = .none then .ok ⟨true, false, 0, 0, []⟩
  else do
    let registry ← normalizeApprovalAuthorities tables authorities
    let groups := configuredGroups registry policy
    let eligible := distinct (groups.flatMap fun authority =>
      authority.members.filterMap (memberIdentity tables))
    let unbounded := groups.any (·.allowAnyGitIdentity)
    let missingAuthorities :=
      unmatchedRequiredAuthorities tables registry policy.authorities policy.requiredAuthorities
    .ok ⟨missingAuthorities = [] && (unbounded || policy.minimum ≤ eligible.length), unbounded,
      eligible.length, policy.minimum, missingAuthorities⟩

/-! ## Matching an actor -/

/-- The answer for an authorized actor. -/
structure AuthorityMatch where
  authorityGroup : Text
  authorityLabel : Text
  identityAssurance : Text
  email : Option Text
  githubLogin : Option Text
deriving DecidableEq

/-- A group that an actor with the given identity may decide for. -/
def Authority.admits (authority : Authority) (email login : Text) : Bool :=
  authority.allowAnyGitIdentity
    || authority.members.any fun member =>
      (email ≠ [] && member.email = some email) || (login ≠ [] && member.githubLogin = some login)

/-- `separator`-joined texts. -/
def join (separator : Text) : List Text → Text
  | [] => []
  | [t] => t
  | t :: ts => t ++ separator ++ join separator ts

/-- `matchApprovalAuthority` over a normalized registry: a match, or the
reason why there is none. -/
def matchIn (registry : Registry) (policy : ApprovalPolicy) (actor : Actor)
    (preferredAuthorities : List Text) : Except Text AuthorityMatch :=
  let email := normalizedEmail tables actor.email
  let login := normalizedLogin tables actor.login
  if email = [] ∧ login = [] then
    .error (js "Approval requires a configured local Git email or an authenticated GitHub login.")
  else
    let ordered := distinct (preferredAuthorities.filter (· ∈ policy.authorities)
      ++ policy.authorities)
    let admits := fun id => (registry.group id).any (·.admits email login)
    match ordered.find? admits with
    | some id =>
        .ok ⟨id, ((registry.group id).map (·.label)).getD id,
          if email ≠ [] then js "configured-local" else js "github-authenticated",
          orNull email, orNull login⟩
    | none =>
        .error (js "Identity '" ++ (if email ≠ [] then email else login)
          ++ js "' is not a member of: "
          ++ (if join (js ", ") policy.authorities = [] then js "no configured authority group"
            else join (js ", ") policy.authorities) ++ js ".")

def matchApprovalAuthority (authorities : Option (List (Text × AuthorityDraft)))
    (policy : ApprovalPolicy) (actor : Actor) (preferredAuthorities : List Text) :
    Except Failure (Except Text AuthorityMatch) := do
  let registry ← normalizeApprovalAuthorities tables authorities
  .ok (matchIn tables registry policy actor preferredAuthorities)

def requireApprovalAuthority (authorities : Option (List (Text × AuthorityDraft)))
    (policy : ApprovalPolicy) (actor : Actor) (preferredAuthorities : List Text) :
    Except Failure AuthorityMatch := do
  match ← matchApprovalAuthority tables authorities policy actor preferredAuthorities with
  | .ok found => .ok found
  | .error reason => .error (refuse reason)

/-! ## The approve rule -/

/-- What is recorded of a review besides the authority: its time and what it
decided over. -/
structure Review where
  actor : Actor
  atTime : Text
  upstreamSha256 : Option Text

/-- The part of `approvePhase` that decides whether a review is recorded, and
for which group. -/
def approvePhase (authorities : Option (List (Text × AuthorityDraft))) (policy : ApprovalPolicy)
    (phaseId : Text) (generation : Nat) (generatedBy : Option Actor)
    (approvals : List ApprovalRecord) (review : Review) : Except Failure (List ApprovalRecord) := do
  let active := approvals.filter (·.active)
  let authority ← requireApprovalAuthority tables authorities policy review.actor
    (remainingRequiredAuthorities policy active)
  failIf (active.any (fun item => actorKey item.actor = actorKey review.actor) = true)
    (refuse ((actorKey review.actor).getD [] ++ js " already approved phase " ++ phaseId
      ++ js "; approvals require distinct identities."))
  let selfApproval := (generatedBy.bind actorKey).isSome
    && generatedBy.bind actorKey = actorKey review.actor
  failIf (selfApproval = true ∧ policy.allowSelfApproval = some false)
    (refuse (js "Capability and workflow policy prohibit self-approval for phase '" ++ phaseId
      ++ js "'. Ask another authorized Git identity to approve this generation."))
  .ok (approvals ++ [⟨.approved, review.actor, authority.authorityGroup, generation, review.atTime,
    none, review.upstreamSha256⟩])

end Approval

end SingularityFlow
