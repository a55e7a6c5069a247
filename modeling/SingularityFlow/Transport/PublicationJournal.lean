/-
# The publication journal of one subject

All transactions of a subject that are open at a time stand in one file: each
begin rewrites it with the record that was there as its parent, an update
changes the outermost members only, and a clear writes the parent back or
removes the file.

A begin asks who owns the record that is there; the reader asks for the subject
all the way down and for no more than 32 parents; a clear asks in addition that
parent and child hold one lease and have different identifiers.
-/
import SingularityFlow.Errors
import SingularityFlow.Lib.Json

namespace SingularityFlow

open Ecma

namespace Journal

/-! ## Records -/

structure Subject where
  kind : Text
  id : Text
  /-- The branch, when the subject names one. -/
  branch : Option Text
deriving DecidableEq

/-- `owner`; a token that is missing is stored as null. -/
structure Owner where
  pid : Nat
  processId : Text
  host : Option Text
  processToken : Option Text
  lockToken : Option Text
deriving DecidableEq

/-- A record without its parent; `data` holds the members that no operation here looks at. -/
structure Frame where
  subject : Subject
  transactionId : Option Text
  owner : Owner
  recoveryPreimage : Option Value
  data : List (Text × Value)

/-- A record, with its parents inside. -/
inductive Record where
  | outermost (frame : Frame)
  | nested (frame : Frame) (parentJournal : Record)

namespace Record

def frame : Record → Frame
  | outermost f => f
  | nested f _ => f

def parentJournal : Record → Option Record
  | outermost _ => none
  | nested _ parent => some parent

/-- A frame over the record that was there. -/
def onto (f : Frame) : Option Record → Record
  | none => outermost f
  | some parent => nested f parent

/-- The frames, the innermost transaction first. -/
def frames : Record → List Frame
  | outermost f => [f]
  | nested f parent => f :: parent.frames

end Record

/-! ## The process and its locks -/

/-- The process that makes the calls. -/
structure Process where
  pid : Nat
  processId : Text
deriving DecidableEq

/-- The owner of a subject lock. -/
structure Lock where
  host : Text
  processToken : Text
  lockToken : Text
deriving DecidableEq

/-- What the calls of a run share; `validPreimage` is `validatePublicationPreimage`. -/
structure Setting where
  process : Process
  subject : Subject
  validPreimage : Value → Subject → Except Failure Unit

variable (env : Setting)

def subjectMismatch (message : Text) : Failure :=
  .singularityFlow message (some (js "PUBLICATION_JOURNAL_SUBJECT_MISMATCH"))

def validateOptional (preimage : Option Value) : Except Failure Unit :=
  match preimage with
  | some preimage => env.validPreimage preimage env.subject
  | none => .ok ()

/-- The checks of one level. -/
def assertFrame (depth : Nat) (f : Frame) : Except Failure Unit := do
  failIf (32 < depth)
    (subjectMismatch (js "Publication journal parent chain exceeds its bounded depth."))
  failIf (¬ (f.subject.kind = env.subject.kind ∧ f.subject.id = env.subject.id
      ∧ (env.subject.branch = none ∨ f.subject.branch = env.subject.branch)))
    (subjectMismatch ((if 0 < depth then js "Parent publication journal"
      else js "Publication journal") ++ js " subject does not match its requested durable identity."))
  validateOptional env f.recoveryPreimage

/-- `assertJournalSubject`. -/
def assertJournalSubject (depth : Nat) : Record → Except Failure Unit
  | .outermost f => assertFrame env depth f
  | .nested f parent => do
      assertFrame env depth f
      assertJournalSubject (depth + 1) parent

/-- `readPublicationJournal`, from what is stored. -/
def readPublicationJournal (stored : Option Record) : Except Failure (Option Record) :=
  match stored with
  | none => .ok none
  | some record => do
      assertJournalSubject env 0 record
      return some record

/-- `publicationJournalOwnedByCurrentProcess`, with the lock that is held. -/
def ownedByCurrentProcess (held : Option Lock) (f : Frame) : Bool :=
  f.owner.pid == env.process.pid && f.owner.processId == env.process.processId
    && ((f.owner.lockToken = none ∨ f.owner.lockToken = some [])
      || held.any fun lock => f.owner.lockToken == some lock.lockToken
          && f.owner.processToken == some lock.processToken)

/-! ## The operations -/

/-- The arguments of a begin. -/
structure Begin where
  transactionId : Option Text
  recoveryPreimage : Option Value
  lockOwner : Option Lock
  data : List (Text × Value)

/-- The frame that a begin writes. -/
def newFrame (b : Begin) : Frame where
  subject := env.subject
  transactionId := b.transactionId
  owner := {
    pid := env.process.pid
    processId := env.process.processId
    host := b.lockOwner.map Lock.host
    processToken := b.lockOwner.map Lock.processToken
    lockToken := b.lockOwner.map Lock.lockToken }
  recoveryPreimage := b.recoveryPreimage
  data := b.data

def journalConflict : Failure := .singularityFlow
  (env.subject.kind ++ js " '" ++ env.subject.id
    ++ js "' already has a publication journal owned by another transaction. Recover it before starting another write.")
  (some (js "PUBLICATION_JOURNAL_CONFLICT"))

/-- `beginPublicationJournal`, under the lock that is held; the record that it writes. -/
def beginPublicationJournal (held : Option Lock) (b : Begin) (stored : Option Record) :
    Except Failure Record := do
  validateOptional env b.recoveryPreimage
  let existing ← readPublicationJournal env stored
  failIf (existing.any (fun record => !ownedByCurrentProcess env held record.frame) = true)
    (journalConflict env)
  return Record.onto (newFrame env b) existing

/-- The members that an update names; the others stay. -/
structure Updates where
  subject : Option Subject
  transactionId : Option (Option Text)
  owner : Option Owner
  recoveryPreimage : Option (Option Value)
  parentJournal : Option (Option Record)
  data : List (Text × Value)

/-- `{ ...record, ...updates, updatedAt }`. -/
def Updates.apply (updates : Updates) (now : Text) (record : Record) : Record :=
  .onto {
    subject := updates.subject.getD record.frame.subject
    transactionId := updates.transactionId.getD record.frame.transactionId
    owner := updates.owner.getD record.frame.owner
    recoveryPreimage := updates.recoveryPreimage.getD record.frame.recoveryPreimage
    data := define (updates.data.foldl (fun l p => define l p.1 p.2) record.frame.data)
      (js "updatedAt") (.str now) }
    (updates.parentJournal.getD record.parentJournal)

/-- `transactionId && record.transactionId !== transactionId`. -/
def otherTransaction (transactionId : Option Text) (f : Frame) : Bool :=
  transactionId.any fun id => id ≠ [] && f.transactionId ≠ some id

/-- `updatePublicationJournal`: the record that it writes, if any. -/
def updatePublicationJournal (updates : Updates) (now : Text) (transactionId : Option Text)
    (stored : Option Record) : Except Failure (Option Record) := do
  let current ← readPublicationJournal env stored
  return match current with
    | none => none
    | some record =>
        if otherTransaction transactionId record.frame then none
        else some (updates.apply now record)

/-- `String(transactionId ?? '').trim()` is empty. -/
def blankId (transactionId : Option Text) : Bool := trim (transactionId.getD []) == []

def parentInvalid : Failure := .singularityFlow
  (js "Nested publication journal for " ++ env.subject.kind ++ js " '" ++ env.subject.id
    ++ js "' has an invalid parent recovery record. The journal was retained and must be inspected before another mutation.")
  (some (js "PUBLICATION_JOURNAL_PARENT_INVALID"))

/-- What a clear asks of a parent. -/
def parentAccepted (f parent : Frame) : Bool :=
  (parent.subject.kind == env.subject.kind && parent.subject.id == env.subject.id)
    && (parent.owner.lockToken == f.owner.lockToken
      && parent.owner.processToken == f.owner.processToken)
    && !blankId parent.transactionId && parent.transactionId != f.transactionId

/-- `clearPublicationJournal`: whether it has cleared, and what is stored then. -/
def clearPublicationJournal (transactionId : Option Text) (stored : Option Record) :
    Except Failure (Bool × Option Record) := do
  let current ← readPublicationJournal env stored
  match current with
  | none => return (false, stored)
  | some record =>
      if otherTransaction transactionId record.frame then return (false, stored)
      else match record.parentJournal with
        | none => return (true, none)
        | some parent =>
            if parentAccepted env record.frame parent.frame then return (true, some parent)
            else .error (parentInvalid env)

/-- One call. -/
inductive Call where
  | begin (held : Option Lock) (arguments : Begin)
  | update (updates : Updates) (now : Text) (transactionId : Option Text)
  | clear (transactionId : Option Text)

/-- What is stored after a call; a call that throws has written nothing. -/
def step (stored : Option Record) : Call → Option Record
  | .begin held b =>
      match beginPublicationJournal env held b stored with
      | .ok record => some record
      | .error _ => stored
  | .update updates now transactionId =>
      match updatePublicationJournal env updates now transactionId stored with
      | .ok (some record) => some record
      | _ => stored
  | .clear transactionId =>
      match clearPublicationJournal env transactionId stored with
      | .ok (_, after) => after
      | .error _ => stored

end Journal

end SingularityFlow
