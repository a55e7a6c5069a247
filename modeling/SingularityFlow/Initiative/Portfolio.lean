/-
# Portfolios and their profiles

A portfolio has a catalog of phases.  A profile lists some of them, in the
order of its lifecycle, and may override what they say.  `validatePortfolio`
normalizes the phases of the catalog, and checks each profile against them;
`resolveInitiativeProfile` lays the overrides over the phases.

Of an override of an output, the validation looks at `required` and
`approval`; the resolution spreads all of its members over the output.  The
fields of a resolved output are therefore values.  What a portfolio says about
repositories, Jira, identity, storage and contexts is checked in `sections`.
-/
import SingularityFlow.Initiative.Policy

namespace SingularityFlow

open Ecma Ecma.Value

namespace Initiatives

/-! ## Paths and references -/

/-- A path inside the repository, without empty parts and dots. -/
def safeRelative (value : Value) (label : Text) : Except Failure Text :=
  match value with
  | .str text => do
      let parts := (trim text).splitOn 0x2F
      let normalized := joinWith (js "/") (parts.filter fun part => part ≠ [] ∧ part ≠ js ".")
      failIf (trim text = []) (refuse (label ++ js " is required."))
      failIf (parts.head? = some [] ∨ js ".." ∈ parts ∨ normalized = [])
        (refuse (label ++ js " must remain inside the repository."))
      .ok normalized
  | _ => .error (refuse (label ++ js " is required."))

/-- `/^[A-Za-z0-9._-]+\/[A-Za-z0-9._-]+$/`. -/
def isReference (t : Text) : Bool :=
  match t.splitOn 0x2F with
  | [phase, output] => phase ≠ [] && output ≠ [] && phase.all isSafeUnit && output.all isSafeUnit
  | _ => false

/-- Whether an object answers for a name, of its own or by inheritance. -/
def answers {α : Type} (members : List (Text × α)) (name : Text) : Bool :=
  (mapGet members name).isSome || name ∈ inheritedNames

/-! ## The catalog -/

structure CatalogOutput where
  id : Text
  kind : Text
  path : Text
  template : Option Text
  consumes : List Text
  required : Bool
  approval : ApprovalPolicy
deriving DecidableEq

structure CatalogCheck where
  id : Text
  requirement : Requirement
  applicability : Option Text
  acceptedAssurance : List Assurance
  revalidateAt : List Text
  gate : Gate
  approval : ApprovalPolicy
deriving DecidableEq

structure CatalogPhase where
  id : Text
  outputs : List CatalogOutput
  checklist : List CatalogCheck
  bundleApproval : ApprovalPolicy
deriving DecidableEq

def outputKinds : List Text :=
  [js "markdown", js "yaml", js "binary-bundle", js "interface-contract"]

def initiativeGenerators : List Text := [js "source-catalog"]

/-- `['a', 'b'].find(name => name === value)`, with what it stands for. -/
def named {α : Type} (names : List (Text × α)) : Value → Option α
  | .str text => mapGet names text
  | _ => none

def outputKind (value : Value) (phaseId id : Text) : Except Failure Text :=
  let kind := (present? "kind" value).getD (.str (js "markdown"))
  match named (outputKinds.map fun kind => (kind, kind)) kind with
  | some kind => .ok kind
  | none => .error (refuse (js "Phase '" ++ phaseId ++ js "' output '" ++ id
      ++ js "' has unsupported kind '" ++ kind.toText ++ js "'."))

def outputReference (phaseId id : Text) (value : Value) : Except Failure Text :=
  match value with
  | .str reference =>
      if isReference reference then .ok reference
      else .error (refuse (js "Phase '" ++ phaseId ++ js "' output '" ++ id
        ++ js "' has invalid consumes reference '" ++ reference ++ js "'. Use phase/output."))
  | _ => .error (refuse (js "Phase '" ++ phaseId ++ js "' output '" ++ id
      ++ js "' has invalid consumes reference '" ++ value.toText ++ js "'. Use phase/output."))

/-- A member that is true as a condition. -/
def truthy? (name : String) (value : Value) : Option Value :=
  (member? (js name) value).filter Value.truthy

def outputTemplate (value : Value) (label : Text) : Except Failure (Option Text) :=
  match truthy? "template" value with
  | none => .ok none
  | some template => (safeRelative template (label ++ js " template")).map some

def normalizeOutput (phaseId : Text) (index : Nat) (value : Value) : Except Failure CatalogOutput := do
  let phaseLabel := js "Phase '" ++ phaseId ++ js "' output "
  let _ ← object value (phaseLabel ++ natText (index + 1))
  let id ← safeId (member? (js "id") value) (phaseLabel ++ js "ID")
  let label := phaseLabel ++ js "'" ++ id ++ js "'"
  let kind ← outputKind value phaseId id
  let fallback := id ++ (if kind = js "yaml" then js ".yml" else js ".md")
  let path ← safeRelative ((present? "path" value).getD (.str fallback)) (label ++ js " path")
  let template ← outputTemplate value label
  let generator := truthy? "generator" value
  failIf (generator.any fun name => name.toText ∉ initiativeGenerators)
    (refuse (label ++ js " has unknown generator '" ++ templateText generator ++ js "'."))
  failIf (kind ≠ js "binary-bundle" ∧ template = none ∧ generator = none)
    (refuse (label ++ js " requires a template."))
  let references ← spread ((present? "consumes" value).getD (.arr []))
  let consumes ← sequence (references.map (outputReference phaseId id))
  unique consumes (label ++ js " consumes")
  let approval ← normalizedApproval ((present? "approval" value).getD (.obj []))
    (label ++ js " approval")
  .ok
    { id, kind, path, template, consumes
      required := member? (js "required") value ≠ some (.bool false)
      approval }

/-! ## Checklists -/

def requirements : List (Text × Requirement) :=
  [(js "must", .must), (js "optional", .optional), (js "conditional", .conditional)]

def gates : List (Text × Gate) := [(js "off", .off), (js "warn", .warn), (js "block", .block)]

def assurances : List (Text × Assurance) :=
  [(js "machine-verified", .machineVerified), (js "system-verified", .systemVerified),
    (js "human-approved", .humanApproved), (js "presence-only", .presenceOnly)]

/-- `/^[1-9]\d*(m|h|d|w)$/`. -/
def isDuration (t : Text) : Bool :=
  match t.reverse with
  | unit :: digits => unit ∈ [0x6D, 0x68, 0x64, 0x77] && digits.all isDigit
      && digits.getLast?.any (· ≠ 0x30)
  | [] => false

/-- The phases at which evidence is checked again. -/
def normalizedFreshness (value : Value) (label : Text) : Except Failure (List Text) := do
  let _ ← object value label
  failIf ((present? "validFor" value).any fun duration =>
      match duration with
      | .str text => !isDuration text
      | _ => true)
    (refuse (label
      ++ js ".validFor must use a positive duration such as 30m, 24h, 90d, or 4w."))
  let written ← spread ((present? "revalidateAt" value).getD (.arr []))
  let revalidateAt ← sequence
    (written.map fun id => safeId (some id) (label ++ js ".revalidateAt entry"))
  unique revalidateAt (label ++ js ".revalidateAt")
  .ok revalidateAt

def checkApplicability (requirement : Requirement) (policy : Option Value) (label : Text) :
    Except Failure (Option Text) :=
  if requirement = .conditional then
    (safeId policy (js "Checklist '" ++ label ++ js "' applicability policy")).map some
  else .ok none

def acceptedByDefault (requirement : Requirement) : Value :=
  .arr ((if requirement = .optional then
    [js "presence-only", js "human-approved", js "system-verified", js "machine-verified"]
  else [js "human-approved", js "system-verified", js "machine-verified"]).map Value.str)

def normalizeCheck (phaseId : Text) (index : Nat) (value : Value) : Except Failure CatalogCheck := do
  let phaseLabel := js "Phase '" ++ phaseId ++ js "' checklist "
  let _ ← object value (phaseLabel ++ js "item " ++ natText (index + 1))
  let id ← safeId (member? (js "id") value) (phaseLabel ++ js "ID")
  let label := phaseId ++ js "/" ++ id
  let some requirement := named requirements
      ((present? "requirement" value).getD (.str (js "must")))
    | .error (refuse (js "Checklist '" ++ label
        ++ js "' requirement must be must, optional, or conditional."))
  let policy := (member? (js "applicability") value).bind (member? (js "policy"))
  failIf (requirement = .conditional ∧ (policy.filter Value.truthy).isNone)
    (refuse (js "Conditional checklist '" ++ label ++ js "' requires applicability.policy."))
  let written ← spread ((present? "acceptedAssurance" value).getD (acceptedByDefault requirement))
  let acceptedAssurance ← sequence (written.map fun item =>
    match named assurances item with
    | some assurance => .ok assurance
    | none => .error (refuse (js "Checklist '" ++ label ++ js "' has unsupported assurance '"
        ++ item.toText ++ js "'.")))
  failIf (¬ acceptedAssurance.Nodup)
    (refuse (js "Checklist '" ++ label ++ js "' acceptedAssurance contains duplicates."))
  let some gate := named gates ((present? "gate" value).getD
      (.str (if requirement = .optional then js "warn" else js "block")))
    | .error (refuse (js "Checklist '" ++ label ++ js "' gate must be off, warn, or block."))
  let applicability ← checkApplicability requirement policy label
  let revalidateAt ← normalizedFreshness ((present? "freshness" value).getD (.obj []))
    (js "Checklist '" ++ label ++ js "' freshness")
  let approval ← normalizedApproval
    ((present? "approval" value).getD (.obj [(js "mode", .str (js "bundle"))]))
    (js "Checklist '" ++ label ++ js "' approval")
  .ok { id, requirement, applicability, acceptedAssurance, revalidateAt, gate, approval }

/-! ## Phases -/

def normalizePhase (id : Text) (value : Value) : Except Failure CatalogPhase := do
  let label := js "Initiative phase '" ++ id ++ js "'"
  let _ ← object value label
  let listedOutputs ← array ((present? "outputs" value).getD (.arr [])) (label ++ js " outputs")
  let outputs ← sequence (listedOutputs.mapIdx (normalizeOutput id))
  let listedChecks ← array ((present? "checklist" value).getD (.arr [])) (label ++ js " checklist")
  let checklist ← sequence (listedChecks.mapIdx (normalizeCheck id))
  unique (outputs.map CatalogOutput.id) (label ++ js " output IDs")
  unique (outputs.map CatalogOutput.path) (label ++ js " output paths")
  unique (checklist.map CatalogCheck.id) (label ++ js " checklist IDs")
  let listedAgents ← array ((present? "agents" value).getD (.arr [])) (label ++ js " agents")
  let agents ← sequence (listedAgents.map fun agent => safeId (some agent) (label ++ js " agent"))
  unique agents (label ++ js " agents")
  let _ ← spread ((present? "lanes" value).getD (.arr []))
  let _ ← spread ((present? "worldModelViews" value).getD (.arr []))
  let bundleApproval ← normalizedApproval ((present? "bundleApproval" value).getD (.obj []))
    (label ++ js " bundle approval")
  .ok { id, outputs, checklist, bundleApproval }

/-! ## Authorities and policies -/

/-- `/^@[A-Za-z0-9_.-]+\/[A-Za-z0-9_.-]+$/`. -/
def isTeam : Text → Bool
  | 0x40 :: t => isReference t
  | _ => false

/-- `/^[^@\s]+@[^@\s]+$/`. -/
def isEmail (t : Text) : Bool :=
  match t.splitOn 0x40 with
  | [name, host] => name ≠ [] && host ≠ [] && !name.any isTrimmed && !host.any isTrimmed
  | _ => false

section Portfolio

variable (tables : UnicodeTables)

def authorityMember (id : Text) (index : Nat) (value : Value) : Except Failure Text := do
  let label := js "Approval authority '" ++ id ++ js "' member " ++ natText (index + 1)
  let _ ← object value label
  match (member? (js "email") value).getD .null with
  | .str email =>
      if isEmail email then .ok (tables.toLowerCase (trim email))
      else .error (refuse (label ++ js " requires a valid email."))
  | _ => .error (refuse (label ++ js " requires a valid email."))

def authorityTeam (id : Text) (value : Value) : Except Failure Text :=
  match value with
  | .str team =>
      if isTeam team then .ok team
      else .error (refuse (js "Approval authority '" ++ id
        ++ js "' GitHub teams must use @organization/team."))
  | _ => .error (refuse (js "Approval authority '" ++ id
      ++ js "' GitHub teams must use @organization/team."))

/-- The addresses of the members of an authority. -/
def approvalAuthority (id : Text) (value : Value) : Except Failure (List Text) := do
  let label := js "Approval authority '" ++ id ++ js "'"
  let _ ← safeId (some (.str id)) (js "Approval authority ID")
  let _ ← object value label
  let listedTeams ← array ((present? "githubTeams" value).getD (.arr []))
    (label ++ js " GitHub teams")
  let teams ← sequence (listedTeams.map (authorityTeam id))
  unique teams (label ++ js " GitHub teams")
  let listedMembers ← array ((present? "members" value).getD (.arr [])) (label ++ js " members")
  let members ← sequence (listedMembers.mapIdx (authorityMember tables id))
  unique members (label ++ js " member emails")
  .ok members

def builtInApplicabilityPolicies : List Text :=
  [js "ux-required", js "ai-use-case", js "security-review-required", js "domain-review-required"]

def isBlank : Value → Bool
  | .str text => trim text = []
  | _ => true

def applicabilityPolicy (id : Text) (value : Value) : Except Failure Unit := do
  let label := js "Applicability policy '" ++ id ++ js "'"
  let _ ← safeId (some (.str id)) (js "Applicability policy ID")
  let _ ← object value label
  failIf ((present? "label" value).any isBlank)
    (refuse (label ++ js " label must be a non-empty string."))
  failIf ((present? "question" value).any isBlank)
    (refuse (label ++ js " question must be a non-empty string."))

/-- The members of an object in the order they are listed, each read by its name. -/
def entries {α : Type} (value : Value) (label : Text) (read : Text → Value → Except Failure α) :
    Except Failure (List (Text × α)) := do
  let members ← object value label
  sequence ((propertyOrder members).map fun entry => do
    let a ← read entry.1 entry.2
    .ok (entry.1, a))

/-- An object that is a member, and empty where it is absent. -/
def section? (name : String) (value : Value) : Value := (present? name value).getD (.obj [])

/-! ## Profiles -/

/-- What a profile overrides of an output: all the members it was given, and its
policy. -/
structure OutputOverride where
  members : List (Text × Value)
  approval : Option ApprovalPolicy
deriving DecidableEq

structure PhaseOverride where
  bundleApproval : Option ApprovalPolicy
  outputs : List (Text × OutputOverride)
deriving DecidableEq

structure Profile where
  phases : List Value
  templateOverrides : List (Text × Value)
  phaseOverrides : List (Text × PhaseOverride)
  packs : List Pack

/-- A phase of a profile, as the profile lists it and as the catalog has it. -/
structure ActivePhase where
  id : Value
  phase : CatalogPhase
deriving DecidableEq

/-- `initiativePhases[phaseId]`.  What every object inherits has no outputs. -/
def activePhase (catalog : List (Text × CatalogPhase)) (phaseId : Value) :
    Except Failure ActivePhase :=
  match mapGet catalog phaseId.toText with
  | some phase => .ok ⟨phaseId, phase⟩
  | none => .error (.typeError (js "Cannot read properties of undefined"))

def knownAuthorities (authorities : List (Text × List Text)) (policy : ApprovalPolicy)
    (label : Text) : Except Failure Unit :=
  match policy.authorities.find? fun id => !answers authorities id with
  | some unknown => .error (refuse (label ++ js " references unknown approval authority '"
      ++ unknown ++ js "'."))
  | none => .ok ()

def CatalogPhase.approvals (phase : CatalogPhase) : List ApprovalPolicy :=
  phase.bundleApproval :: phase.outputs.map CatalogOutput.approval
    ++ phase.checklist.map CatalogCheck.approval

/-- `position.get(phaseId)`. -/
def position? (active : List ActivePhase) (phaseId : Text) : Option Nat :=
  active.findIdx? (·.id = .str phaseId)

/-- The outputs of a phase of the profile. -/
def activeOutputs (active : List ActivePhase) (phaseId : Text) : List CatalogOutput :=
  ((active.find? (·.id = .str phaseId)).map (·.phase.outputs)).getD []

def consumedOutput (active : List ActivePhase) (position : Nat) (label reference : Text) :
    Except Failure Unit :=
  match position? active (referencePhase reference) with
  | none => .error (refuse (label ++ js " consumes inactive phase '" ++ referencePhase reference
      ++ js "'."))
  | some producer => do
      failIf (position ≤ producer) (refuse (label ++ js " must consume an earlier phase output."))
      failIf (¬ (activeOutputs active (referencePhase reference)).any
          (·.id = referenceOutput reference))
        (refuse (label ++ js " references unknown output '" ++ reference ++ js "'."))

def checkReferences (active : List ActivePhase) (policies : List Text) (phaseId : Text)
    (check : CatalogCheck) : Except Failure Unit := do
  let label := js "Checklist '" ++ phaseId ++ js "/" ++ check.id ++ js "'"
  let _ ← sequence (check.revalidateAt.map fun revalidateAt =>
    failIf ((position? active revalidateAt).isNone)
      (refuse (label ++ js " revalidates at inactive phase '" ++ revalidateAt ++ js "'.")))
  failIf (check.applicability.any fun policy =>
      policy ∉ policies && policy ∉ inheritedNames)
    (refuse (label ++ js " references unknown applicability policy '"
      ++ check.applicability.getD [] ++ js "'. Declare it under applicabilityPolicies."))

/-- What a profile says of one of its phases: its authorities, its inputs and its
checks. -/
def phaseReferences (authorities : List (Text × List Text)) (policies : List Text)
    (profileId : Text) (active : List ActivePhase) (position : Nat) (entry : ActivePhase) :
    Except Failure Unit := do
  let label := js "Initiative profile '" ++ profileId ++ js "'"
  let phaseId := entry.id.toText
  let _ ← sequence (entry.phase.approvals.map fun policy =>
    knownAuthorities authorities policy (label ++ js " phase '" ++ phaseId ++ js "'"))
  let _ ← sequence (entry.phase.outputs.flatMap fun output => output.consumes.map
    (consumedOutput active position
      (label ++ js " output '" ++ phaseId ++ js "/" ++ output.id ++ js "'")))
  let _ ← sequence (entry.phase.checklist.map (checkReferences active policies phaseId))
  .ok ()

def templateOverride (profileId : Text) (active : List ActivePhase) (key : Text) (value : Value) :
    Except Failure Value := do
  let label := js "Initiative profile '" ++ profileId ++ js "' templateOverrides '" ++ key ++ js "'"
  failIf ((key.splitOn 0x2F).length ≠ 2)
    (refuse (label ++ js " must be keyed '<phase>/<output>'."))
  failIf ((position? active (referencePhase key)).isNone)
    (refuse (label ++ js " references inactive phase '" ++ referencePhase key ++ js "'."))
  failIf (¬ (activeOutputs active (referencePhase key)).any (·.id = referenceOutput key))
    (refuse (label ++ js " references unknown output '" ++ key ++ js "'."))
  failIf (isBlank value) (refuse (label ++ js " must be a template path."))
  .ok value

/-- A policy that an override gives. -/
def overriddenApproval (authorities : List (Text × List Text)) (name : String) (value : Value)
    (label policyLabel : Text) : Except Failure (Option ApprovalPolicy) :=
  match present? name value with
  | none => .ok none
  | some written => do
      let policy ← normalizedApproval written policyLabel
      knownAuthorities authorities policy label
      .ok (some policy)

def outputOverride (authorities : List (Text × List Text)) (outputs : List CatalogOutput)
    (label phaseId outputId : Text) (value : Value) : Except Failure OutputOverride := do
  let outputLabel := label ++ js " output '" ++ outputId ++ js "'"
  let members ← object value outputLabel
  failIf (¬ outputs.any (·.id = outputId))
    (refuse (outputLabel ++ js " is not an output of phase '" ++ phaseId ++ js "'."))
  failIf ((present? "required" value).any fun required =>
      required ≠ .bool true && required ≠ .bool false)
    (refuse (outputLabel ++ js ".required must be boolean."))
  let approval ← overriddenApproval authorities "approval" value outputLabel
    (outputLabel ++ js " approval")
  .ok { members, approval }

def phaseOverride (authorities : List (Text × List Text)) (profileId : Text)
    (active : List ActivePhase) (phaseId : Text) (value : Value) : Except Failure PhaseOverride := do
  let label := js "Initiative profile '" ++ profileId ++ js "' phaseOverrides '" ++ phaseId
    ++ js "'"
  let _ ← object value label
  failIf ((position? active phaseId).isNone)
    (refuse (label ++ js " references inactive phase '" ++ phaseId ++ js "'."))
  let bundleApproval ← overriddenApproval authorities "bundleApproval" value label
    (label ++ js " bundle approval")
  let outputs ← entries (section? "outputs" value) (label ++ js " outputs")
    (outputOverride authorities (activeOutputs active phaseId) label phaseId)
  .ok { bundleApproval, outputs }

/-! ## Packs -/

def packMember (label : Text) (value : Value) : Except Failure Text :=
  let written := refuse (label ++ js " member '" ++ value.toText
    ++ js "' must be written as '<phase>/<output>'.")
  match value with
  | .str member => do
      failIf ((member.splitOn 0x2F).length ≠ 2) written
      let _ ← safeId (some (.str (referencePhase member))) (label ++ js " member phase")
      let _ ← safeId (some (.str (referenceOutput member))) (label ++ js " member output")
      .ok member
  | _ => .error written

def normalizePack (profileId : Text) (index : Nat) (value : Value) : Except Failure Pack := do
  let profileLabel := js "Initiative profile '" ++ profileId ++ js "' pack "
  let _ ← object value (profileLabel ++ natText (index + 1))
  let id ← safeId (member? (js "id") value) (profileLabel ++ js "ID")
  let label := js "Artifact pack '" ++ profileId ++ js "/" ++ id ++ js "'"
  let listed ← array ((present? "members" value).getD (.arr [])) (label ++ js " members")
  failIf (listed = []) (refuse (label ++ js " must list at least one member output."))
  let members ← sequence (listed.map (packMember label))
  unique members (label ++ js " members")
  let approval ← normalizedApproval ((present? "approval" value).getD (.obj []))
    (label ++ js " approval")
  .ok { id, members, approval }

def packReferences (authorities : List (Text × List Text)) (profileId : Text)
    (active : List ActivePhase) (pack : Pack) : Except Failure Unit := do
  let label := js "Artifact pack '" ++ profileId ++ js "/" ++ pack.id ++ js "'"
  let _ ← sequence (pack.members.map fun member => do
    failIf ((position? active (referencePhase member)).isNone)
      (refuse (label ++ js " references inactive phase '" ++ referencePhase member ++ js "'."))
    failIf (¬ (activeOutputs active (referencePhase member)).any (·.id = referenceOutput member))
      (refuse (label ++ js " references unknown output '" ++ member ++ js "'.")))
  knownAuthorities authorities pack.approval label

/-! ## Validation -/

structure Portfolio where
  approvalAuthorities : List (Text × List Text)
  phases : List (Text × CatalogPhase)
  profiles : List (Text × Profile)

def lifecycleModes : List Text := [js "planning-only", js "full-delivery"]

def isPrimitive : Value → Bool
  | .arr _ | .obj _ => false
  | _ => true

/-- The phases that a profile lists.  Two objects of a configuration are never the
same element. -/
def profilePhases (catalog : List (Text × CatalogPhase)) (id : Text) (value : Value) :
    Except Failure (List Value) := do
  let label := js "Initiative profile '" ++ id ++ js "'"
  let listed ← array ((member? (js "phases") value).getD .null) (label ++ js " phases")
  failIf (listed = []) (refuse (label ++ js " must contain at least one phase."))
  failIf (¬ (listed.filter isPrimitive).Nodup) (refuse (label ++ js " phases contains duplicates."))
  let _ ← sequence (listed.map fun phaseId => failIf (answers catalog phaseId.toText = false)
    (refuse (label ++ js " references unknown phase '" ++ phaseId.toText ++ js "'.")))
  failIf ((present? "lifecycleMode" value).any fun mode =>
      (named (lifecycleModes.map fun mode => (mode, mode)) mode).isNone)
    (refuse (label ++ js " lifecycleMode must be planning-only or full-delivery."))
  .ok listed

def validateProfile (authorities : List (Text × List Text)) (policies : List Text)
    (catalog : List (Text × CatalogPhase)) (id : Text) (value : Value) : Except Failure Profile := do
  let label := js "Initiative profile '" ++ id ++ js "'"
  let _ ← safeId (some (.str id)) (js "Initiative profile ID")
  let _ ← object value label
  let phases ← profilePhases catalog id value
  let active ← sequence (phases.map (activePhase catalog))
  let _ ← sequence (active.mapIdx (phaseReferences authorities policies id active))
  let templateOverrides ← entries (section? "templateOverrides" value)
    (label ++ js " templateOverrides") (templateOverride id active)
  let phaseOverrides ← entries (section? "phaseOverrides" value) (label ++ js " phaseOverrides")
    (phaseOverride authorities id active)
  let listedPacks ← array ((present? "packs" value).getD (.arr [])) (label ++ js " packs")
  let packs ← sequence (listedPacks.mapIdx (normalizePack id))
  unique (packs.map Pack.id) (label ++ js " pack IDs")
  let _ ← sequence (packs.map (packReferences authorities id active))
  .ok { phases, templateOverrides, phaseOverrides, packs }

def catalogPhase (id : Text) (value : Value) : Except Failure CatalogPhase := do
  let _ ← safeId (some (.str id)) (js "Initiative phase ID")
  normalizePhase id value

/-- `sections` checks what the profiles do not read. -/
def validatePortfolio (sections : Value → Except Failure Unit) (value : Value) :
    Except Failure Portfolio := do
  let _ ← object value (js "Portfolio configuration")
  failIf (member? (js "version") value ≠ some (.num (Number.ofNat 1)))
    (refuse (js "Portfolio configuration version must be 1."))
  sections value
  let policies ← entries (section? "applicabilityPolicies" value) (js "applicabilityPolicies")
    applicabilityPolicy
  let approvalAuthorities ← entries (section? "approvalAuthorities" value)
    (js "approvalAuthorities") (approvalAuthority tables)
  let phases ← entries (section? "initiativePhases" value) (js "initiativePhases") catalogPhase
  let profiles ← entries (section? "initiativeProfiles" value) (js "initiativeProfiles")
    (validateProfile approvalAuthorities
      (builtInApplicabilityPolicies ++ policies.map Prod.fst) phases)
  .ok { approvalAuthorities, phases, profiles }

end Portfolio

/-! ## Resolution -/

/-- An output with the members of its override spread over it. -/
structure ResolvedOutput where
  id : Value
  kind : Value
  path : Value
  template : Value
  consumes : Value
  required : Value
  approval : ApprovalPolicy
deriving DecidableEq

structure ResolvedPhase where
  id : Value
  outputs : List ResolvedOutput
  checklist : List CatalogCheck
  bundleApproval : ApprovalPolicy
deriving DecidableEq

/-- What an override says of one output.  An inherited name stands for a
function, which has no members of its own. -/
def PhaseOverride.output (override : PhaseOverride) (outputId : Text) : OutputOverride :=
  (mapGet override.outputs outputId).getD ⟨[], none⟩

/-- A member of an override that is spread over an output. -/
def OutputOverride.over (override : OutputOverride) (name : String) (value : Value) : Value :=
  (mapGet override.members (js name)).getD value

def resolveOutput (templateOverrides : List (Text × Value)) (phaseId : Text)
    (override : PhaseOverride) (output : CatalogOutput) : ResolvedOutput :=
  let outputOverride := override.output output.id
  { id := outputOverride.over "id" (.str output.id)
    kind := outputOverride.over "kind" (.str output.kind)
    path := outputOverride.over "path" (.str output.path)
    template := (mapGet templateOverrides (phaseId ++ js "/" ++ output.id)).getD
      ((present? "template" (.obj outputOverride.members)).getD
        ((output.template.map Value.str).getD .null))
    consumes := outputOverride.over "consumes" (.arr (output.consumes.map Value.str))
    required := outputOverride.over "required" (.bool output.required)
    approval := outputOverride.approval.getD output.approval }

/-- `structuredClone` does not copy the function that an inherited name stands for. -/
def phaseOverrideOf (profile : Profile) (phaseId : Text) : Except Failure PhaseOverride :=
  match mapGet profile.phaseOverrides phaseId with
  | some override => .ok override
  | none =>
      if phaseId ∈ inheritedNames then .error (.typeError (js "The value could not be cloned."))
      else .ok ⟨none, []⟩

def resolveProfilePhase (portfolio : Portfolio) (profile : Profile) (phaseId : Value) :
    Except Failure ResolvedPhase := do
  let entry ← activePhase portfolio.phases phaseId
  let override ← phaseOverrideOf profile phaseId.toText
  .ok
    { id := phaseId
      outputs := entry.phase.outputs.map
        (resolveOutput profile.templateOverrides phaseId.toText override)
      checklist := entry.phase.checklist
      bundleApproval := override.bundleApproval.getD entry.phase.bundleApproval }

/-! ## Planning lifecycles -/

def ResolvedPhase.hasContract (phase : ResolvedPhase) (outputs : List String) (check : String) :
    Bool :=
  outputs.all (fun id => phase.outputs.any (·.id = .str (js id)))
    && phase.checklist.any (·.id = js check)

structure EpicRole where
  phaseId : Text
  isPlayedBy : ResolvedPhase → Bool

def epicRoles : List EpicRole :=
  [⟨js "epic-intake", (·.hasContract ["source-catalog"] "sources-pinned")⟩,
    ⟨js "epic-requirements", (·.hasContract ["requirements-specification",
      "requirements-traceability"] "requirements-traceable")⟩,
    ⟨js "epic-planning", (·.hasContract ["story-specification-index"]
      "story-specifications-complete")⟩,
    ⟨js "epic-publish", (·.hasContract ["jira-write-plan", "materialization-report"]
      "stories-materialized")⟩]

def epicRenamed (phases : List ResolvedPhase) (role : EpicRole) : Except Failure Unit :=
  match phases.find? fun phase => role.isPlayedBy phase && phase.id ≠ .str role.phaseId with
  | some renamed => .error (.singularityFlow (js "Epic producer step '" ++ renamed.id.toText
      ++ js "' requires the canonical Epic step ID '" ++ role.phaseId ++ js "'. Copy the profile "
      ++ js "with its shared steps instead of renaming the producer.")
      (some (js "INITIATIVE_EPIC_PRODUCER_ID_UNSUPPORTED")))
  | none => .ok ()

def assertEpicPlanningTopology (phases : List ResolvedPhase) : Except Failure Unit :=
  if phases.all fun phase => epicRoles.all fun role => !role.isPlayedBy phase then .ok ()
  else do
    let _ ← sequence (epicRoles.map (epicRenamed phases))
    failIf (phases.length ≠ epicRoles.length
        ∨ (phases.zip epicRoles).any fun entry =>
          entry.1.id ≠ .str entry.2.phaseId || !entry.2.isPlayedBy entry.1)
      (.singularityFlow (js "Epic planning requires the complete ordered lifecycle: "
        ++ joinWith (js " → ") (epicRoles.map EpicRole.phaseId)
        ++ js ". Repair the profile before starting a new Epic; an existing pinned Epic must not be "
        ++ js "rewritten.") (some (js "INITIATIVE_EPIC_TOPOLOGY_UNSUPPORTED")))

def unknownProfile (profileId : Text) : Failure :=
  if profileId ∈ inheritedNames then
    .typeError (js "Cannot read properties of undefined (reading 'map')")
  else refuse (js "Unknown initiative profile '" ++ profileId ++ js "'.")

/-- The phases of a profile.  `identity` is what is said of the identity that was
asked for. -/
def resolveInitiativeProfile (identity : Except Failure Unit) (portfolio : Portfolio)
    (profileId : Text) : Except Failure (List ResolvedPhase) := do
  let some profile := mapGet portfolio.profiles profileId
    | .error (unknownProfile profileId)
  let phases ← sequence (profile.phases.map (resolveProfilePhase portfolio profile))
  assertEpicPlanningTopology phases
  identity
  .ok phases

end Initiatives

end SingularityFlow
