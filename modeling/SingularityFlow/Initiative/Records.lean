/-
# The records of an Initiative

Approvals, evidence and invalidations are records that are only added, each
in a file under the hash of what it says.  `readInitiativeRecords` refuses a
file whose name is not the hash of its contents; an `Entry` is what it
returns.  It sorts them by date, which no decision here depends on, so they
stand in the order in which they were added.

A decision is counted for a subject while it is about the subject's present
hash (`activeApprovalRecords`).  With a chain of reviews, each decision also
records the step it was made for (`approvalChainProgress`).
-/
import SingularityFlow.Initiative.State
import SingularityFlow.Ledger.Records

namespace SingularityFlow

open Ecma

namespace Initiatives

/-! ## Entries -/

structure Entry (α : Type) where
  sha256 : Text
  record : α

inductive SubjectType where
  | phase | output | check | pack
deriving DecidableEq

def SubjectType.text : SubjectType → Text
  | .phase => js "phase"
  | .output => js "output"
  | .check => js "check"
  | .pack => js "pack"

/-- What a decision is about. -/
structure Subject where
  type : SubjectType
  id : Text
  sha256 : Option Text
  /-- The step of the chain it was made for, and the body that was to sign. -/
  chainStep : Option Nat
  authorityGroup : Option Text
deriving DecidableEq

inductive Decision where
  | approved | rejected
deriving DecidableEq

structure ApprovalRecord where
  decision : Decision
  initiativeId : Text
  phase : Text
  subject : Subject
  reason : Option Text
  actor : Actor
  agent : Option Text
  channel : Text
  recordedAt : Text
  selfApproval : Bool
deriving DecidableEq

/-- What sets a check aside. -/
inductive EvidenceDecision where
  | notApplicable | waived
deriving DecidableEq

structure EvidenceRecord where
  phase : Text
  check : Text
  assurance : Assurance
  decision : Option EvidenceDecision
  sourcePath : Option Text
  sourceSha256 : Option Text
  observedAt : Text
  expiresAt : Option Text
  supersedes : List Text

structure InvalidationRecord where
  initiativeId : Text
  cause : Text
  starts : List Text
  affected : List Text
  reason : Text
  actor : Actor
  agent : Option Text
  recordedAt : Text

/-- An Initiative with its records. -/
structure Workspace where
  initiative : Initiative
  approvals : List (Entry ApprovalRecord)
  evidence : List (Entry EvidenceRecord)
  invalidations : List (Entry InvalidationRecord)

/-! ## Appending -/

/-- The hash that the program takes of a record. -/
def recordSha256 (v : Value) : Text :=
  Ledger.sha256 (stringify (js "  ") (Ledger.canonicalize v) ++ js "\n")

def textOrNull (text : Option Text) : Value := (text.map Value.str).getD .null

def natValue (n : Nat) : Value := .num (Number.ofNat n)

def Actor.toValue (actor : Actor) : Value :=
  .obj [(js "name", textOrNull actor.name), (js "email", textOrNull actor.email)]

def Subject.toValue (subject : Subject) : Value :=
  .obj ([(js "type", .str subject.type.text), (js "id", .str subject.id),
      (js "sha256", textOrNull subject.sha256)]
    ++ subject.chainStep.toList.map (fun step => (js "chainStep", natValue step))
    ++ subject.authorityGroup.toList.map (fun group => (js "authorityGroup", .str group)))

def ApprovalRecord.toValue (record : ApprovalRecord) : Value :=
  .obj ([(js "schemaVersion", natValue 1), (js "type", .str (js "approval")),
      (js "decision", .str (if record.decision = .approved then js "approved" else js "rejected")),
      (js "initiativeId", .str record.initiativeId), (js "phase", .str record.phase),
      (js "subject", record.subject.toValue)]
    ++ record.reason.toList.map (fun reason => (js "reason", .str reason))
    ++ [(js "actor", record.actor.toValue),
      (js "identityAssurance", .str (js "configured-local")),
      (js "agent", textOrNull record.agent), (js "channel", .str record.channel),
      (js "at", .str record.recordedAt), (js "selfApproval", .bool record.selfApproval)])

def InvalidationRecord.toValue (record : InvalidationRecord) : Value :=
  .obj [(js "schemaVersion", natValue 1), (js "type", .str (js "invalidation")),
    (js "initiativeId", .str record.initiativeId), (js "cause", .str record.cause),
    (js "starts", .arr (record.starts.map Value.str)),
    (js "affected", .arr (record.affected.map Value.str)), (js "reason", .str record.reason),
    (js "actor", record.actor.toValue), (js "agent", textOrNull record.agent),
    (js "at", .str record.recordedAt)]

/-- A record that is there already is not written again. -/
def append {α : Type} (entries : List (Entry α)) (entry : Entry α) : List (Entry α) :=
  if entry.sha256 ∈ entries.map Entry.sha256 then entries else entries ++ [entry]

theorem append_eq_or {α : Type} (entries : List (Entry α)) (entry : Entry α) :
    append entries entry = entries ∨ append entries entry = entries ++ [entry] := by
  unfold append
  split
  · exact .inl rfl
  · exact .inr rfl

variable (host : Host)

def appendInitiativeRecord {α : Type} (toValue : α → Value) (entries : List (Entry α)) (record : α) :
    Entry α × List (Entry α) :=
  let appended : Entry α := ⟨host.recordSha256 (toValue record), record⟩
  (appended, append entries appended)

/-! ## Counted decisions -/

/-- The subject of a decision, with its present hash. -/
structure SubjectKey where
  phaseId : Text
  type : SubjectType
  id : Text
  sha256 : Option Text

/-- The approvals that an invalidation affects. -/
def invalidatedApprovals (invalidations : List (Entry InvalidationRecord)) : List Text :=
  (invalidations.flatMap fun entry => entry.record.affected).filterMap fun node =>
    if (js "approval:").isPrefixOf node then some (node.drop 9) else none

def countedFor (key : SubjectKey) (invalidated : List Text) (entry : Entry ApprovalRecord) : Bool :=
  entry.record.decision = .approved && entry.record.phase = key.phaseId
    && entry.record.subject.type = key.type && entry.record.subject.id = key.id
    && entry.record.subject.sha256 = key.sha256 && entry.sha256 ∉ invalidated

def activeApprovalRecords (records : List (Entry ApprovalRecord)) (key : SubjectKey)
    (invalidated : List Text) : List (Entry ApprovalRecord) :=
  records.filter (countedFor key invalidated)

def distinctApprovals (records : List (Entry ApprovalRecord)) : Nat :=
  (distinct (records.map fun entry => actorEmail host entry.record.actor)).length

/-! ## Chains -/

structure StepProgress where
  index : Nat
  step : ChainStep
  count : Nat

def StepProgress.satisfied (progress : StepProgress) : Bool :=
  progress.step.minimum ≤ progress.count

/-- The addresses that signed for a step of the chain. -/
def signatures (records : List (Entry ApprovalRecord)) (index : Nat) : List Text :=
  distinct ((records.filter fun entry => entry.record.subject.chainStep = some index).filterMap
    fun entry => (actorEmail host entry.record.actor).filter (· ≠ []))

structure ChainProgress where
  steps : List StepProgress
  /-- The first step that is not satisfied. -/
  open? : Option StepProgress

def ChainProgress.satisfied (progress : ChainProgress) : Bool := progress.open?.isNone

def stepProgress (records : List (Entry ApprovalRecord)) (chain : List ChainStep) :
    List StepProgress :=
  chain.mapIdx fun index step => ⟨index, step, (signatures host records index).length⟩

def approvalChainProgress (policy : ApprovalPolicy) (records : List (Entry ApprovalRecord)) :
    Option ChainProgress :=
  policy.chain.map fun chain =>
    let steps := stepProgress host records chain
    ⟨steps, steps.find? fun step => !step.satisfied⟩

def chainStatusDescription (progress : ChainProgress) : Text :=
  match progress.open? with
  | none => js "all review steps satisfied"
  | some step => js "waiting on " ++ step.step.label ++ js " (" ++ natText step.count ++ js "/"
      ++ natText step.step.minimum ++ js ")"

/-! ## Authorization -/

def authorityMembers (resolution : Resolution) (authorityId : Text) : List Text :=
  (((mapGet resolution.approvalAuthorities authorityId).getD []).map
    host.tables.toLowerCase).filter (· ≠ [])

/-- Whether an actor may decide.  Without records, as for a rejection, any body
of a chain will do; with them it is the body of the step that is open. -/
def isAuthorized (resolution : Resolution) (policy : ApprovalPolicy) (actor : Actor)
    (records : Option (List (Entry ApprovalRecord))) : Bool :=
  if policy.mode = .none then true
  else
    match (actorEmail host actor).filter (· ≠ []) with
    | none => false
    | some email =>
        match records.bind (approvalChainProgress host policy) with
        | some progress =>
            progress.open?.any fun step =>
              email ∈ authorityMembers host resolution step.step.authority
        | none => policy.authorities.any fun id => email ∈ authorityMembers host resolution id

def authorityDescription (policy : ApprovalPolicy) : Text :=
  if policy.authorities = [] then js "no configured authority"
  else joinWith (js ", ") policy.authorities

end Initiatives

end SingularityFlow
